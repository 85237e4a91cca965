import Leaderberry.Engine.Certificate
import Leaderberry.Engine.SetRepresentation
import Leaderberry.Evidence.Detection

/-!
# A fork within a round has its culprits

Two quorum certificates of one type, height and round that name different values share
validators with more than a third of the power. For each of these the two certificates hold
two votes that `VerifyDuplicateVoteEvidence` accepts as a proof of misbehaviour, so a fork
within a round is not only impossible with fewer than a third of faulty validators
(`quorumCert_unique`): whoever has both certificates can convict a third.

The certificates name validators by index, the evidence names them by name. What ties the two
together is that the vote sets, `validatePOL` and the votes rebuilt from a commit have the name
of the validator at the index (`NamedBacks`), and that the name map of the set leads back to
it (`Aligned`).
-/

namespace Leaderberry

/-- In an aligned set a validator that is found by its index is found by its name. -/
theorem Aligned.getByName {vs : ValidatorSet} (h : Aligned vs) {i : Nat} {val : NamedValidator}
    (hval : vs.getByIndex i = some val) :
    vs.getByName (accountNameString val.name) = some val := by
  rw [h.wf.getByIndex_eq] at hval
  have hlookup : vs.byName.lookup (accountNameString val.name) = some i := by
    rw [h.positions, nameStrings, List.getElem?_map, hval]
    rfl
  rw [ValidatorSet.getByName, hlookup, Option.bind_some, hval]

section

variable [Externals] {chainID : GoString} {vs : ValidatorSet} {t : VoteType} {height round : Int}
  {key : BlockKey}

/-- A vote that backs a certificate, under the name of its validator. -/
structure NamedBacks (chainID : GoString) (vs : ValidatorSet) (t : VoteType)
    (height round : Int) (key : BlockKey) (i : Nat) (vote : Vote) : Prop where
  type : vote.type = t
  height : vote.height = height
  round : vote.round = round
  key : blockHashKey vote.blockHash = key
  signed : ∃ val, vs.getByIndex i = some val ∧ vote.validator = val.name ∧
    verifyVoteSignature chainID vote val.publicKey = .ok ()

theorem Backs.named {i : Nat} {vote : Vote} (h : Backs chainID vs t height round key i vote)
    (hname : ∀ val, vs.getByIndex vote.validatorIndex = some val → vote.validator = val.name) :
    NamedBacks chainID vs t height round key i vote := by
  obtain ⟨val, hval, hsig⟩ := h.signed
  exact ⟨h.type, h.height, h.round, h.key, val, hval, hname val (h.index.symm ▸ hval), hsig⟩

/-- A vote set only has votes under the right name. -/
theorem FilledFrom.named_quorum (hwf : vs.Wf) {votes : List Vote} {set : VoteSet}
    (h : FilledFrom chainID vs t height round votes set) {hash : Option Hash}
    (hmaj : set.twoThirdsMajority = some hash) :
    ∃ S, hwf.electorate.IsQuorum S ∧ ∀ i ∈ S, ∃ v ∈ votes,
      NamedBacks chainID vs t height round (blockHashKey hash) i v := by
  refine ⟨_, hwf.isQuorum_of_eq h.validatorSet (h.inv.majority_quorum hmaj), fun i hi => ?_⟩
  obtain ⟨v, hv, hkey⟩ := VoteSet.mem_votersFor.mp hi
  obtain ⟨hindex, val, hval⟩ := h.inv.verified i v hv
  refine ⟨v, h.stored i v hv, hval.type.trans h.voteType, hval.height.trans h.height,
    hval.round.trans h.round, hkey, val, ?_, hval.name.symm, ?_⟩
  · rw [← h.validatorSet, ← hindex]
    exact hval.found
  · rw [← h.chainID]
    exact verifyVoteSignature_of_verify hval.signature

/-- Behind a certificate stands a quorum of verified votes under the validators' names. -/
theorem QuorumCert.named_quorum (hwf : vs.Wf) {votes : List Vote}
    (h : QuorumCert chainID vs t height round votes key) :
    ∃ S, hwf.electorate.IsQuorum S ∧ ∀ i ∈ S, ∃ v ∈ votes,
      NamedBacks chainID vs t height round key i v := by
  have hquorum := h.quorum hwf
  cases h with
  | voteSet hmaj => exact (filledFrom_addVotes hwf _ _).named_quorum hwf hmaj
  | pol ht hheight hround hvalid =>
    obtain ⟨S, hS, hback⟩ := hquorum
    obtain ⟨-, hall, -⟩ := validatePOL_iff.mp hvalid
    refine ⟨S, hS, fun i hi => ?_⟩
    obtain ⟨v, hv, hv'⟩ := hback i hi
    refine ⟨v, hv, hv'.named fun val hval => ?_⟩
    obtain ⟨val', hval', hname, -⟩ := (hall v hv).signed
    rw [hval] at hval'
    cases hval'
    exact hname.symm
  | commit ht hround hok =>
    obtain ⟨S, hS, hback⟩ := hquorum
    refine ⟨S, hS, fun i hi => ?_⟩
    obtain ⟨v, hv, hv'⟩ := hback i hi
    refine ⟨v, hv, hv'.named fun val hval => ?_⟩
    -- the votes of a commit are made with the name that is in the set
    obtain ⟨sig, -, hsig⟩ := List.mem_filterMap.mp hv
    obtain ⟨val', hval', rfl⟩ := Option.map_eq_some_iff.mp hsig
    have hsame : val' = val := Option.some_inj.mp (hval'.symm.trans hval)
    exact congrArg NamedValidator.name hsame

/-- Two backed values make evidence. -/
theorem NamedBacks.convicts (hvs : Aligned vs) {key' : BlockKey} {i : Nat} {a b : Vote}
    (ha : NamedBacks chainID vs t height round key i a)
    (hb : NamedBacks chainID vs t height round key' i b) (hne : key ≠ key') (now : Int) :
    ∃ val, vs.getByIndex i = some val ∧ a.validator = val.name ∧ b.validator = val.name ∧
      Byzantine.verifyDuplicateVoteEvidence (some (Byzantine.Pool.equivocation now a b vs val))
        chainID (some vs) = .ok () := by
  obtain ⟨val, hval, hname, hsig⟩ := ha.signed
  obtain ⟨val', hval', hname', hsig'⟩ := hb.signed
  cases hval.symm.trans hval'
  have hblock : Byzantine.votesForSameBlock a b = false := by
    refine beq_eq_false_iff_ne.mpr fun heq => hne ?_
    rw [← ha.key, ← hb.key, heq]
  have hfound : vs.getByName (accountNameString a.validator) = some val :=
    hname ▸ hvs.getByName hval
  exact ⟨val, hval, hname, hname', (Byzantine.verifyDuplicateVoteEvidence_ok_iff hfound).mpr
    ⟨ha.height.trans hb.height.symm, ha.round.trans hb.round.symm,
      congrArg VoteType.code (ha.type.trans hb.type.symm),
      congrArg accountNameString (hname.trans hname'.symm), hblock, hsig, hsig'⟩⟩

/-- **A fork within a round convicts a third.** Of two certificates of one round for different
values, made by any of the three checkers, the validators that back both have more than a
third of the power, and for each of them the certificates hold two votes that are valid
duplicate-vote evidence. -/
theorem fork_convicts_third (hvs : Derived vs) {votes votes' : List Vote} {key key' : BlockKey}
    (h : QuorumCert chainID vs t height round votes key)
    (h' : QuorumCert chainID vs t height round votes' key') (hne : key ≠ key') (now : Int) :
    ∃ culprits : Finset Nat, (∀ i ∈ culprits, i < vs.size) ∧
      vs.totalPower < 3 * ∑ i ∈ culprits, vs.power i ∧
      ∀ i ∈ culprits, ∃ val, vs.getByIndex i = some val ∧ ∃ a ∈ votes, ∃ b ∈ votes',
        a.validator = val.name ∧ b.validator = val.name ∧
        Byzantine.verifyDuplicateVoteEvidence
          (some (Byzantine.Pool.equivocation now a b vs val)) chainID (some vs) = .ok () := by
  have haligned := hvs.aligned
  have hwf := haligned.wf
  obtain ⟨S, hS, hback⟩ := h.named_quorum hwf
  obtain ⟨T, hT, hback'⟩ := h'.named_quorum hwf
  refine ⟨S ∩ T, fun i hi => ?_, ?_, fun i hi => ?_⟩
  · exact Finset.mem_range.mp (hS.subset (Finset.mem_inter.mp hi).1)
  · have hpower := hS.inter_power hT
    rw [hwf.total_electorate] at hpower
    exact hpower
  · obtain ⟨a, ha, hbacks⟩ := hback i (Finset.mem_inter.mp hi).1
    obtain ⟨b, hb, hbacks'⟩ := hback' i (Finset.mem_inter.mp hi).2
    obtain ⟨val, hval, hname, hname', hverify⟩ := hbacks.convicts haligned hbacks' hne now
    exact ⟨val, hval, a, ha, b, hb, hname, hname', hverify⟩

end

section fork

attribute [local instance] transparent

/-- The commit that validators 2 and 3 signed for another block. -/
def forkedCommit : Commit where
  height := 1
  round := 0
  blockHash := blockHash (Scenario.block 1 11)
  signatures := [Scenario.vote 2 1 .precommit 1 0 (Scenario.block 1 11),
    Scenario.vote 3 2 .precommit 1 0 (Scenario.block 1 11)].map fun v =>
      ⟨v.validatorIndex, v.signature, v.timestamp, v.blockHash⟩

theorem derived_certificateValidators : Derived certificateValidators.1 := by
  unfold certificateValidators Scenario.validatorSet
  split
  · rename_i hset
    exact .new hset
  · rename_i hset
    exact absurd Scenario.isOk_three (by rw [hset]; exact Bool.false_ne_true)

/-- A vote set and a commit of one round disagree. -/
theorem fork_convicts_third_commit :
    QuorumCert [] certificateValidators.1 .precommit 1 0 certificateVotes
      (blockHashKey (blockHash (Scenario.block 1 10))) ∧
    QuorumCert [] certificateValidators.1 .precommit 1 0
      (forkedCommit.votes certificateValidators.1) (blockHashKey forkedCommit.blockHash) ∧
    ∃ culprits : Finset Nat, (∀ i ∈ culprits, i < certificateValidators.1.size) ∧
      certificateValidators.1.totalPower < 3 * ∑ i ∈ culprits, certificateValidators.1.power i ∧
      ∀ i ∈ culprits, ∃ val, certificateValidators.1.getByIndex i = some val ∧
        ∃ a ∈ certificateVotes, ∃ b ∈ forkedCommit.votes certificateValidators.1,
        a.validator = val.name ∧ b.validator = val.name ∧
        Byzantine.verifyDuplicateVoteEvidence
          (some (Byzantine.Pool.equivocation 5 a b certificateValidators.1 val)) []
          (some certificateValidators.1) = .ok () := by
  have hset : QuorumCert [] certificateValidators.1 .precommit 1 0 certificateVotes
      (blockHashKey (blockHash (Scenario.block 1 10))) :=
    @QuorumCert.voteSet _ _ _ _ _ _ none
      [(0, 0, certificateVote 1 0), (0, 0, certificateVote 2 1)] _ (by decide +kernel)
  have hcommit : QuorumCert [] certificateValidators.1 .precommit 1 0
      (forkedCommit.votes certificateValidators.1) (blockHashKey forkedCommit.blockHash) :=
    .commit rfl rfl (by decide +kernel)
  exact ⟨hset, hcommit, fork_convicts_third derived_certificateValidators hset hcommit
    (by decide +kernel) 5⟩

end fork

end Leaderberry
