import Leaderberry.Types.Commit
import Leaderberry.Engine.Tally
import Leaderberry.Engine.Pol
import Leaderberry.Engine.Scenario

/-!
# Quorum certificates

Three checkers of the repository find that a quorum voted for something: a `VoteSet`
with a 2/3+ majority, `validatePOL` and `VerifyCommit`. `QuorumCert` puts them under
one roof. Behind each certificate stand distinct validators with more than two thirds
of the power whose signatures verified (`QuorumCert.quorum`), so two certificates of
one type, height and round name the same value unless more than a third of the power
signed twice (`quorumCert_unique`).

The value of a certificate is a block key, as in the vote sets: nil and the empty hash
are one value.
-/

namespace Leaderberry

/-- Any sequence of `AddVote` calls, each with the parent's generation and the time. -/
def VoteSet.addVotes [Externals] (vs : VoteSet) (calls : List (Nat × Int × Vote)) : VoteSet :=
  calls.foldl (fun vs call => (vs.addVote call.1 call.2.1 call.2.2).2) vs

/-- The precommits that the signatures of a commit stand for. -/
def Commit.votes (vs : ValidatorSet) (c : Commit) : List Vote :=
  c.signatures.filterMap fun sig => (vs.getByIndex sig.validatorIndex).map (sig.vote c)

section

variable [Externals] {votes : List Vote}

/-- A quorum certificate of a type, height and round: the votes it was made from and
the value it names. -/
inductive QuorumCert (chainID : GoString) (vs : ValidatorSet) (t : VoteType)
    (height round : Int) : List Vote → BlockKey → Prop
  | voteSet {generation : Option Nat} {calls : List (Nat × Int × Vote)} {hash : Option Hash} :
      ((VoteSet.new chainID height round t vs generation).addVotes calls).twoThirdsMajority =
        some hash →
      QuorumCert chainID vs t height round (calls.map fun call => call.2.2) (blockHashKey hash)
  | pol {p : Proposal} : t = .prevote → p.height = height → p.polRound = round →
      validatePOL chainID vs p = .ok () →
      QuorumCert chainID vs t height round p.polVotes (blockHashKey (blockHash p.block))
  | commit {c : Commit} {hash : Hash} : t = .precommit → c.round = round →
      verifyCommit chainID (some vs) hash height (some c) = .ok () →
      QuorumCert chainID vs t height round (c.votes vs) (blockHashKey hash)

variable {chainID : GoString} {vs : ValidatorSet} {t : VoteType} {height round : Int}

/-- A vote of validator `i` for `key` whose signature verified. -/
structure Backs (chainID : GoString) (vs : ValidatorSet) (t : VoteType) (height round : Int)
    (key : BlockKey) (i : Nat) (vote : Vote) : Prop where
  index : vote.validatorIndex = i
  type : vote.type = t
  height : vote.height = height
  round : vote.round = round
  key : blockHashKey vote.blockHash = key
  signed : ∃ val, vs.getByIndex i = some val ∧
    verifyVoteSignature chainID vote val.publicKey = .ok ()

/-! ## Each certificate has a quorum behind it -/

/-- A vote set with its invariant, still of the given type, height and round, that
holds only votes from a list. -/
structure FilledFrom (chainID : GoString) (vs : ValidatorSet) (t : VoteType)
    (height round : Int) (votes : List Vote) (set : VoteSet) : Prop where
  inv : set.Inv
  chainID : set.chainID = chainID
  validatorSet : set.validatorSet = vs
  voteType : set.voteType = t
  height : set.height = height
  round : set.round = round
  stored : ∀ i v, set.votes.lookup i = some v → v ∈ votes

theorem FilledFrom.addVote {set : VoteSet} (h : FilledFrom chainID vs t height round votes set)
    (g : Nat) (now : Int) {vote : Vote} (hvote : vote ∈ votes) :
    FilledFrom chainID vs t height round votes (set.addVote g now vote).2 := by
  by_cases hok : (set.addVote g now vote).1 = .ok true
  · obtain ⟨val, hval, hnone, heq⟩ := VoteSet.addVote_eq_store hok
    rw [heq]
    refine { h with inv := h.inv.store hval hnone, stored := fun i v hv => ?_ }
    rw [VoteSet.lookup_store] at hv
    split at hv
    · cases hv
      exact hvote
    · exact h.stored i v hv
  · rw [VoteSet.addVote_rejected hok]
    exact h

theorem FilledFrom.addVotes (calls : List (Nat × Int × Vote)) :
    ∀ {set : VoteSet}, FilledFrom chainID vs t height round votes set →
      (∀ call ∈ calls, call.2.2 ∈ votes) →
      FilledFrom chainID vs t height round votes (set.addVotes calls) := by
  induction calls with
  | nil => exact fun h _ => h
  | cons call rest ih =>
    intro set h hall
    exact ih (h.addVote call.1 call.2.1 (hall call (List.mem_cons_self ..)))
      fun c hc => hall c (List.mem_cons_of_mem _ hc)

theorem filledFrom_addVotes (hwf : vs.Wf) (generation : Option Nat)
    (calls : List (Nat × Int × Vote)) :
    FilledFrom chainID vs t height round (calls.map fun call => call.2.2)
      ((VoteSet.new chainID height round t vs generation).addVotes calls) :=
  FilledFrom.addVotes calls
    ⟨VoteSet.inv_new hwf, rfl, rfl, rfl, rfl, rfl, fun i v hv => by cases hv⟩
    fun _ hcall => List.mem_map_of_mem hcall

theorem FilledFrom.quorum (hwf : vs.Wf) {set : VoteSet}
    (h : FilledFrom chainID vs t height round votes set) {hash : Option Hash}
    (hmaj : set.twoThirdsMajority = some hash) :
    ∃ S, hwf.electorate.IsQuorum S ∧ ∀ i ∈ S, ∃ v ∈ votes,
      Backs chainID vs t height round (blockHashKey hash) i v := by
  refine ⟨_, hwf.isQuorum_of_eq h.validatorSet (h.inv.majority_quorum hmaj), fun i hi => ?_⟩
  obtain ⟨v, hv, hkey⟩ := VoteSet.mem_votersFor.mp hi
  obtain ⟨hindex, val, hval⟩ := h.inv.verified i v hv
  refine ⟨v, h.stored i v hv, hindex, hval.type.trans h.voteType, hval.height.trans h.height,
    hval.round.trans h.round, hkey, val, ?_, ?_⟩
  · rw [← h.validatorSet, ← hindex]
    exact hval.found
  · rw [← h.chainID]
    exact verifyVoteSignature_of_verify hval.signature

theorem verifyCommit_quorum (hwf : vs.Wf) {c : Commit} {hash : Hash}
    (h : verifyCommit chainID (some vs) hash height (some c) = .ok ()) :
    ∃ S, hwf.electorate.IsQuorum S ∧ ∀ i ∈ S, ∃ v ∈ c.votes vs,
      Backs chainID vs .precommit height c.round (blockHashKey hash) i v := by
  obtain ⟨hheight, -, hnodup, hall, hpower⟩ := verifyCommit_counted h
  generalize hcounted : c.signatures.filter (CommitSig.counts hash) = counted at hpower
  have hsig : ∀ sig ∈ counted, sig ∈ c.signatures ∧ sig.counts hash = true := by
    intro sig hsig
    rw [← hcounted] at hsig
    exact List.mem_filter.mp hsig
  refine ⟨(counted.map CommitSig.validatorIndex).toFinset, hwf.isQuorum_of_list ?_ ?_ ?_, ?_⟩
  · rw [← hcounted]
    exact hnodup.sublist (List.filter_sublist.map _)
  · intro i hi
    obtain ⟨sig, hmem, rfl⟩ := List.mem_map.mp hi
    obtain ⟨val, hval⟩ := hall sig (hsig sig hmem).1 (hsig sig hmem).2
    exact ⟨val, hval.found⟩
  · rw [List.map_map]
    exact hpower
  · intro i hi
    obtain ⟨sig, hmem, rfl⟩ := List.mem_map.mp (List.mem_toFinset.mp hi)
    obtain ⟨val, hval⟩ := hall sig (hsig sig hmem).1 (hsig sig hmem).2
    have hfor : sig.blockHash = some hash := by
      have hcounts := (hsig sig hmem).2
      simp only [CommitSig.counts, Bool.and_eq_true, beq_iff_eq] at hcounts
      exact hcounts.2
    refine ⟨sig.vote c val, ?_, rfl, rfl, hheight, rfl, congrArg blockHashKey hfor, val,
      hval.found, hval.signature⟩
    exact List.mem_filterMap.mpr ⟨sig, (hsig sig hmem).1, by rw [hval.found]; rfl⟩

/-- Behind a certificate stands a quorum of verified votes for its value. -/
theorem QuorumCert.quorum (hwf : vs.Wf) {key : BlockKey}
    (h : QuorumCert chainID vs t height round votes key) :
    ∃ S, hwf.electorate.IsQuorum S ∧ ∀ i ∈ S, ∃ v ∈ votes,
      Backs chainID vs t height round key i v := by
  cases h with
  | voteSet hmaj => exact (filledFrom_addVotes hwf _ _).quorum hwf hmaj
  | @pol p ht hheight hround hvalid =>
    obtain ⟨-, hall, -⟩ := validatePOL_iff.mp hvalid
    refine ⟨_, pol_quorum hwf hvalid, fun i hi => ?_⟩
    obtain ⟨v, hv, rfl⟩ := List.mem_map.mp (List.mem_toFinset.mp hi)
    have hvote := hall v hv
    obtain ⟨val, hval, -, hsig⟩ := hvote.signed
    exact ⟨v, hv, rfl, hvote.type.trans ht.symm, hvote.height.trans hheight,
      hvote.round.trans hround, congrArg blockHashKey hvote.blockHash, val, hval, hsig⟩
  | commit ht hround hok =>
    subst ht hround
    exact verifyCommit_quorum hwf hok

/-! ## Uniqueness -/

/-- Validator `i` signed votes for two values at one type, height and round. -/
def Equivocates (Signed : Nat → Vote → Prop) (t : VoteType) (height round : Int) (i : Nat) :
    Prop :=
  ∃ v v', Signed i v ∧ Signed i v' ∧ (v.type = t ∧ v'.type = t) ∧
    (v.height = height ∧ v'.height = height) ∧ (v.round = round ∧ v'.round = round) ∧
    blockHashKey v.blockHash ≠ blockHashKey v'.blockHash

/-- **Quorum certificates are unique per round.** `Signed` says which votes the
validators signed; a signature in the certificates that verifies was made by its
validator. If the validators that signed for two values hold at most a third of the
power, any two certificates of the round name the same value. -/
theorem quorumCert_unique (hwf : vs.Wf) (Signed : Nat → Vote → Prop) {votes votes' : List Vote}
    {key key' : BlockKey} (h : QuorumCert chainID vs t height round votes key)
    (h' : QuorumCert chainID vs t height round votes' key')
    (hsigned : ∀ v ∈ votes ++ votes', ∀ val, vs.getByIndex v.validatorIndex = some val →
      verifyVoteSignature chainID v val.publicKey = .ok () → Signed v.validatorIndex v)
    (hminor : hwf.electorate.Minor (Equivocates Signed t height round)) : key = key' := by
  obtain ⟨S, hS, hSvotes⟩ := h.quorum hwf
  obtain ⟨T, hT, hTvotes⟩ := h'.quorum hwf
  obtain ⟨i, hiS, hiT, hgood⟩ := hS.exists_common hT hminor
  obtain ⟨v, hv, hback⟩ := hSvotes i hiS
  obtain ⟨v', hv', hback'⟩ := hTvotes i hiT
  have hown : ∀ {w : Vote} {k : BlockKey}, w ∈ votes ++ votes' →
      Backs chainID vs t height round k i w → Signed i w := by
    intro w k hw hb
    obtain ⟨val, hval, hsig⟩ := hb.signed
    have := hsigned w hw val (by rw [hb.index]; exact hval) hsig
    rwa [hb.index] at this
  by_contra hne
  refine hgood ⟨v, v', hown (List.mem_append_left _ hv) hback,
    hown (List.mem_append_right _ hv') hback', ⟨hback.type, hback'.type⟩,
    ⟨hback.height, hback'.height⟩, ⟨hback.round, hback'.round⟩, ?_⟩
  rw [hback.key, hback'.key]
  exact hne

end

section twoCertificates

attribute [local instance] transparent

/-- Validator 2 is a quorum with each of the others. -/
def certificateValidators : { vs : ValidatorSet // vs.Wf } :=
  Scenario.validatorSet [(1, 1), (2, 5), (3, 2)] Scenario.isOk_three

/-- The precommit of a validator for block 10. -/
def certificateVote (k : Byte) (index : Nat) : Vote :=
  Scenario.vote k index .precommit 1 0 (Scenario.block 1 10)

/-- The precommits of validators 1 and 2. -/
def certificateVotes : List Vote := [certificateVote 1 0, certificateVote 2 1]

/-- The commit made of the precommits of validators 2 and 3. -/
def certificateCommit : Commit where
  height := 1
  round := 0
  blockHash := blockHash (Scenario.block 1 10)
  signatures := [certificateVote 2 1, certificateVote 3 2].map fun v =>
    ⟨v.validatorIndex, v.signature, v.timestamp, v.blockHash⟩

/-- Uniqueness at a vote set and a commit, which have one validator in common. -/
theorem quorumCert_unique_commit :
    QuorumCert [] certificateValidators.1 .precommit 1 0 certificateVotes
      (blockHashKey (blockHash (Scenario.block 1 10))) ∧
    QuorumCert [] certificateValidators.1 .precommit 1 0
      (certificateCommit.votes certificateValidators.1)
      (blockHashKey certificateCommit.blockHash) ∧
    blockHashKey (blockHash (Scenario.block 1 10)) =
      blockHashKey certificateCommit.blockHash := by
  have hset : QuorumCert [] certificateValidators.1 .precommit 1 0 certificateVotes
      (blockHashKey (blockHash (Scenario.block 1 10))) :=
    @QuorumCert.voteSet _ _ _ _ _ _ none
      [(0, 0, certificateVote 1 0), (0, 0, certificateVote 2 1)] _ (by decide +kernel)
  have hcommit : QuorumCert [] certificateValidators.1 .precommit 1 0
      (certificateCommit.votes certificateValidators.1)
      (blockHashKey certificateCommit.blockHash) :=
    .commit rfl rfl (by decide +kernel)
  refine ⟨hset, hcommit, quorumCert_unique certificateValidators.2
    (fun _ v => v.blockHash = some (blockHash (Scenario.block 1 10))) hset hcommit ?_ ?_⟩
  · have hall : ∀ v ∈ certificateVotes ++ certificateCommit.votes certificateValidators.1,
        v.blockHash = some (blockHash (Scenario.block 1 10)) := by
      decide +kernel
    exact fun v hv _ _ _ => hall v hv
  · -- nobody signed for two values
    intro S hS hbad
    obtain rfl : S = ∅ := Finset.eq_empty_of_forall_notMem fun i hi => by
      obtain ⟨v, v', hv, hv', -, -, -, hne⟩ := hbad i hi
      exact hne (by rw [hv, hv'])
    rw [Electorate.power_empty, certificateValidators.2.total_electorate]
    decide +kernel

end twoCertificates

end Leaderberry
