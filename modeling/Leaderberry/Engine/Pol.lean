import Leaderberry.Engine.State

/-!
# Proofs of lock

What `validatePOL` accepts: votes that are prevotes for the proposed block in the
proof-of-lock round, each signed by a known validator, no validator twice, with at
least `TwoThirdsMajority` power together (`validatePOL_iff`). Their validators are a
quorum (`pol_quorum`).
-/

namespace Leaderberry

variable [Externals] {chainID : GoString} {vs : ValidatorSet} {p : Proposal} {vote : Vote}

/-- The signature check of `AddVote` implies the one of `validatePOL`. -/
theorem verifyVoteSignature_of_verify {key : PublicKey}
    (h : verifySignature key (voteSignBytes chainID vote) vote.signature = true) :
    verifyVoteSignature chainID vote key = .ok () := by
  simp only [verifySignature, Bool.and_eq_true, beq_iff_eq] at h
  obtain ⟨⟨hkey, hsig⟩, hverify⟩ := h
  unfold verifyVoteSignature
  rw [if_neg, if_neg (not_not.mpr hkey), if_pos hverify]
  rw [hsig]
  decide

/-- What `validatePOL` asks of a single vote. -/
structure PolVote (chainID : GoString) (vs : ValidatorSet) (p : Proposal) (vote : Vote) :
    Prop where
  type : vote.type = .prevote
  height : vote.height = p.height
  round : vote.round = p.polRound
  blockHash : vote.blockHash = some (Leaderberry.blockHash p.block)
  signed : ∃ val, vs.getByIndex vote.validatorIndex = some val ∧ val.name = vote.validator ∧
    verifyVoteSignature chainID vote val.publicKey = .ok ()

theorem polPower_cons_of {i : Nat} {rest : List Vote} {seen : List Nat} {power : Int}
    (h : PolVote chainID vs p vote) (hseen : vote.validatorIndex ∉ seen) :
    polPower chainID vs p i (vote :: rest) seen power =
      polPower chainID vs p (i + 1) rest (vote.validatorIndex :: seen)
        (power + vs.power vote.validatorIndex) := by
  obtain ⟨val, hval, hname, hsig⟩ := h.signed
  simp only [polPower, h.type, h.height, h.round, h.blockHash, hval, hname, hsig, hseen,
    ValidatorSet.power_of_getByIndex hval]
  simp

theorem of_polPower_cons {i : Nat} {rest : List Vote} {seen : List Nat} {power power' : Int}
    (h : polPower chainID vs p i (vote :: rest) seen power = .ok power') :
    PolVote chainID vs p vote ∧ vote.validatorIndex ∉ seen := by
  unfold polPower at h
  split at h
  · cases h
  split at h
  · cases h
  split at h
  · cases h
  split at h
  · cases h
  split at h
  · cases h
  rename_i htype hheight hround hnil hhash
  split at h
  · cases h
  rename_i val hval
  split at h
  · cases h
  rename_i hname
  split at h
  · cases h
  rename_i hseen
  split at h
  · cases h
  rename_i hsig
  exact ⟨⟨not_not.mp htype, not_not.mp hheight, not_not.mp hround, not_not.mp hhash,
    val, hval, not_not.mp hname, hsig⟩, hseen⟩

/-- The loop of `validatePOL`. -/
theorem polPower_iff (votes : List Vote) : ∀ (i : Nat) (seen : List Nat) (power power' : Int),
    polPower chainID vs p i votes seen power = .ok power' ↔
      (∀ v ∈ votes, PolVote chainID vs p v ∧ v.validatorIndex ∉ seen) ∧
      (votes.map Vote.validatorIndex).Nodup ∧
      power' = power + (votes.map fun v => vs.power v.validatorIndex).sum := by
  induction votes with
  | nil =>
    intro i seen power power'
    simp [polPower, eq_comm]
  | cons vote rest ih =>
    intro i seen power power'
    by_cases hvote : PolVote chainID vs p vote ∧ vote.validatorIndex ∉ seen
    · rw [polPower_cons_of hvote.1 hvote.2, ih]
      constructor
      · rintro ⟨hall, hnodup, rfl⟩
        refine ⟨?_, ?_, ?_⟩
        · intro v hv
          rcases List.mem_cons.mp hv with rfl | hv
          · exact hvote
          · exact ⟨(hall v hv).1, fun hmem => (hall v hv).2 (List.mem_cons_of_mem _ hmem)⟩
        · rw [List.map_cons, List.nodup_cons]
          refine ⟨fun hmem => ?_, hnodup⟩
          obtain ⟨v, hv, heq⟩ := List.mem_map.mp hmem
          exact (hall v hv).2 (heq ▸ List.mem_cons_self ..)
        · rw [List.map_cons, List.sum_cons]
          omega
      · rintro ⟨hall, hnodup, rfl⟩
        rw [List.map_cons, List.nodup_cons] at hnodup
        refine ⟨fun v hv => ?_, hnodup.2, ?_⟩
        · obtain ⟨hv', hnot⟩ := hall v (List.mem_cons_of_mem _ hv)
          refine ⟨hv', fun hmem => ?_⟩
          rcases List.mem_cons.mp hmem with heq | hmem
          · exact hnodup.1 (heq ▸ List.mem_map_of_mem hv)
          · exact hnot hmem
        · rw [List.map_cons, List.sum_cons]
          omega
    · constructor
      · intro h
        exact absurd (of_polPower_cons h) hvote
      · rintro ⟨hall, -⟩
        exact absurd (hall vote (List.mem_cons_self ..)) hvote

/-- The votes of a valid proof of lock. -/
theorem validatePOL_iff : validatePOL chainID vs p = .ok () ↔
    p.polVotes ≠ [] ∧ (∀ v ∈ p.polVotes, PolVote chainID vs p v) ∧
      (p.polVotes.map Vote.validatorIndex).Nodup ∧
      vs.twoThirdsMajority ≤ (p.polVotes.map fun v => vs.power v.validatorIndex).sum := by
  have hloop : ∀ power, polPower chainID vs p 0 p.polVotes [] 0 = .ok power ↔
      (∀ v ∈ p.polVotes, PolVote chainID vs p v) ∧
      (p.polVotes.map Vote.validatorIndex).Nodup ∧
      power = (p.polVotes.map fun v => vs.power v.validatorIndex).sum := by
    intro power
    rw [polPower_iff]
    simp
  unfold validatePOL
  by_cases hnone : p.polVotes = []
  · simp [hnone]
  · rw [if_neg (by simpa using hnone)]
    constructor
    · intro h
      split at h
      · cases h
      · rename_i power hpower
        obtain ⟨hall, hnodup, rfl⟩ := (hloop power).mp hpower
        split at h
        · cases h
        · rename_i henough
          exact ⟨hnone, hall, hnodup, not_lt.mp henough⟩
    · rintro ⟨-, hall, hnodup, henough⟩
      rw [(hloop _).mpr ⟨hall, hnodup, rfl⟩]
      exact if_neg (not_lt.mpr henough)

/-- The validators of a valid proof of lock are a quorum. -/
theorem pol_quorum (hwf : vs.Wf) (h : validatePOL chainID vs p = .ok ()) :
    hwf.electorate.IsQuorum (p.polVotes.map Vote.validatorIndex).toFinset := by
  obtain ⟨-, hall, hnodup, hpower⟩ := validatePOL_iff.mp h
  refine hwf.isQuorum_of_list hnodup (fun i hi => ?_) (by rw [List.map_map]; exact hpower)
  obtain ⟨v, hv, rfl⟩ := List.mem_map.mp hi
  obtain ⟨val, hval, -⟩ := (hall v hv).signed
  exact ⟨val, hval⟩

theorem polValid_iff {cs : ConsensusState} : cs.polValid p = true ↔
    validatePOL cs.config.chainID cs.validatorSet p = .ok () := by
  unfold ConsensusState.polValid
  split
  · rename_i hok
    simp [hok]
  · rename_i hbad
    simp [hbad]

end Leaderberry
