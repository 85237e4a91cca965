import Leaderberry.Engine.Tally
import Leaderberry.Engine.Scenario

/-!
# Rejected votes

`HeightVoteSet.AddVote` looks at the height and the type of a vote, creates the set of its
round if there is none, and only then has the vote checked. So a rejected vote may leave an
empty set behind, in any round its sender names.

`rejected_unchanged_iff` says exactly when it leaves nothing: when it is rejected before the
set is looked up, or when the set was there already.
-/

namespace Leaderberry

namespace HeightVoteSet

/-- The same height, with the same sets in the same rounds. -/
structure Unchanged (hvs hvs' : HeightVoteSet) : Prop where
  chainID : hvs'.chainID = hvs.chainID
  height : hvs'.height = hvs.height
  validatorSet : hvs'.validatorSet = hvs.validatorSet
  generation : hvs'.generation = hvs.generation
  voteSetAt : ∀ t r, hvs'.voteSetAt t r = hvs.voteSetAt t r

theorem Unchanged.refl (hvs : HeightVoteSet) : hvs.Unchanged hvs :=
  ⟨rfl, rfl, rfl, rfl, fun _ _ => rfl⟩

/-- Putting a set back changes nothing when it was there, and creates it when it was not. -/
theorem unchanged_put_orNew_iff (hvs : HeightVoteSet) {t : VoteType}
    (ht : t = .prevote ∨ t = .precommit) (r : Int) :
    hvs.Unchanged (hvs.put t r (hvs.voteSetOrNew t r)) ↔ (hvs.voteSetAt t r).isSome := by
  constructor
  · intro h
    have hat := h.voteSetAt t r
    rw [voteSetAt_put _ _ _ ht, if_pos ⟨rfl, rfl⟩] at hat
    rw [← hat]
    rfl
  · intro hsome
    obtain ⟨vs, hvs⟩ := Option.isSome_iff_exists.mp hsome
    refine ⟨by simp, by simp, by simp, by simp, fun t' r' => ?_⟩
    rw [voteSetAt_put _ _ _ ht]
    split
    · rename_i heq
      obtain ⟨rfl, rfl⟩ := heq
      rw [voteSetOrNew, hvs, Option.getD_some]
    · rfl

/-! ## Runs -/

/-- The calls that change the votes of a height, with the clock of `AddVote`. -/
inductive Call where
  | addVote (now : Int) (vote : Vote)
  | addVoteForReplay (vote : Vote)
  | setPeerMaj23 (peerID : GoString) (round : Int) (voteType : VoteType) (hash : Option Hash)
  | reset (height : Int) (validatorSet : ValidatorSet)

section

variable [Externals]

/-- What a call leaves. -/
def call (hvs : HeightVoteSet) : Call → HeightVoteSet
  | .addVote now vote => (hvs.addVote now vote).2
  | .addVoteForReplay vote => (hvs.addVoteForReplay vote).2
  | .setPeerMaj23 peerID round voteType hash => hvs.setPeerMaj23 peerID round voteType hash
  | .reset height validatorSet => hvs.reset height validatorSet

/-- The votes of a node after a sequence of calls. -/
def calls (hvs : HeightVoteSet) (cs : List Call) : HeightVoteSet :=
  cs.foldl call hvs

/-- What `AddVote` leaves when it rejects a vote. -/
theorem addVote_rejected_cases (hvs : HeightVoteSet) {now : Int} {vote : Vote}
    (h : (hvs.addVote now vote).1 ≠ .ok true) :
    (vote.height ≠ hvs.height ∨ ¬ (vote.type = .prevote ∨ vote.type = .precommit)) ∧
      (hvs.addVote now vote).2 = hvs ∨
    vote.height = hvs.height ∧ (vote.type = .prevote ∨ vote.type = .precommit) ∧
      (hvs.addVote now vote).2 =
        hvs.put vote.type vote.round (hvs.voteSetOrNew vote.type vote.round) := by
  unfold addVote addVoteWith at h ⊢
  by_cases hheight : vote.height = hvs.height
  · rw [if_neg (not_not.mpr hheight)] at h ⊢
    by_cases ht : vote.type = .prevote ∨ vote.type = .precommit
    · rw [if_pos ht] at h ⊢
      dsimp only at h ⊢
      -- the set of the round is put back as it was found or created
      exact .inr ⟨hheight, ht, by rw [VoteSet.addVote_rejected h]⟩
    · rw [if_neg ht]
      exact .inl ⟨.inr ht, rfl⟩
  · rw [if_pos hheight]
    exact .inl ⟨.inl hheight, rfl⟩

/-- **When a rejected vote leaves no trace.** -/
theorem rejected_unchanged_iff (chainID : GoString) (height : Int) (validatorSet : ValidatorSet)
    (cs : List Call) (now : Int) (vote : Vote) :
    let hvs := (HeightVoteSet.new chainID height validatorSet).calls cs
    (hvs.addVote now vote).1 ≠ .ok true →
    (hvs.Unchanged (hvs.addVote now vote).2 ↔
      vote.height ≠ hvs.height ∨ ¬ (vote.type = .prevote ∨ vote.type = .precommit) ∨
        (hvs.voteSetAt vote.type vote.round).isSome) := by
  intro hvs hrejected
  rcases hvs.addVote_rejected_cases hrejected with ⟨hearly, heq⟩ | ⟨hheight, ht, heq⟩
  · rw [heq]
    constructor
    · rintro -
      rcases hearly with hheight | ht
      · exact .inl hheight
      · exact .inr (.inl ht)
    · rintro -
      exact .refl hvs
  · rw [heq, unchanged_put_orNew_iff hvs ht]
    constructor
    · exact fun hsome => .inr (.inr hsome)
    · rintro (hne | hnt | hsome)
      · exact absurd hheight hne
      · exact absurd ht hnt
      · exact hsome

end

attribute [local instance] transparent

/-- Validator 1 votes in round 0; then somebody without a key names round 7. -/
def forgedVote : Vote := { Scenario.vote 1 0 .prevote 1 7 none with signature := ⟨[]⟩ }

/-- A second vote of validator 1 in a round that has a set is rejected without a trace. -/
theorem rejected_unchanged_conflict :
    let hvs := (HeightVoteSet.new [] 1 (Scenario.validatorSet _ Scenario.isOk_strong).1).calls
      [.addVote 0 (Scenario.vote 1 0 .prevote 1 0 none)]
    hvs.Unchanged
      (hvs.addVote 0 (Scenario.vote 1 0 .prevote 1 0 (some (Scenario.block 1 1)))).2 := by
  refine (rejected_unchanged_iff [] 1 _ [.addVote 0 (Scenario.vote 1 0 .prevote 1 0 none)] 0
    (Scenario.vote 1 0 .prevote 1 0 (some (Scenario.block 1 1))) ?_).mpr ?_
  · decide +kernel
  · decide +kernel

/-- A vote without a signature is rejected and leaves a prevote set for round 7. -/
theorem rejected_leaves_set :
    let hvs := HeightVoteSet.new [] 1 (Scenario.validatorSet _ Scenario.isOk_strong).1
    (hvs.addVote 0 forgedVote).1 = .error .invalidSignature ∧
      (hvs.voteSetAt .prevote 7).isSome = false ∧
      ((hvs.addVote 0 forgedVote).2.voteSetAt .prevote 7).isSome = true ∧
      ¬ hvs.Unchanged (hvs.addVote 0 forgedVote).2 := by
  intro hvs
  have hbefore : (hvs.voteSetAt .prevote 7).isSome = false := by decide +kernel
  have hafter : ((hvs.addVote 0 forgedVote).2.voteSetAt .prevote 7).isSome = true := by
    decide +kernel
  refine ⟨by decide +kernel, hbefore, hafter, fun h => ?_⟩
  rw [h.voteSetAt, hbefore] at hafter
  cases hafter

end HeightVoteSet

end Leaderberry
