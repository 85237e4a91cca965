import Leaderberry.Engine.Commit

/-!
# Transitions left unfired

Votes may arrive before the node takes the step that reacts to them. `Fired` says that
no transition which the votes of the current round call for is left over. Adding a vote
leaves a state `Stirred`: fired but for what this vote calls for, and the two
`…_cases` lemmas say what the handlers do about it.

A node that votes looks at all votes again when it casts its own, in
`signAndSendVoteLocked`. So a node with a validator is fired after every event
(`handle_voter`); the proof goes along the handlers, by induction on the stack.
-/

namespace Leaderberry

/-! ## 2/3+ of any votes -/

namespace HeightVoteSet

/-- `HasTwoThirdsAny` of a type and round; a missing set has no votes. -/
def hasAny (hvs : HeightVoteSet) (t : VoteType) (r : Int) : Bool :=
  (hvs.voteSetAt t r).any VoteSet.hasTwoThirdsAny

variable {hvs : HeightVoteSet} {t : VoteType} {r : Int} {vs : VoteSet} {now : Int} {vote : Vote}

theorem hasAny_eq (h : hvs.voteSetAt t r = some vs) :
    hvs.hasAny t r = vs.hasTwoThirdsAny := by
  rw [hasAny, h, Option.any_some]

theorem hasAny_absent (h : hvs.voteSetAt t r = none) : hvs.hasAny t r = false := by
  rw [hasAny, h, Option.any_none]

theorem majority_isSome (h : hvs.voteSetAt t r = some vs) :
    (hvs.majority t r).isSome = vs.hasTwoThirdsMajority := by
  rw [majority_of_voteSetAt h, VoteSet.twoThirdsMajority, VoteSet.hasTwoThirdsMajority,
    Option.isSome_map]

theorem hasAny_put (ht : t = .prevote ∨ t = .precommit) (t' : VoteType) (r' : Int) :
    (hvs.put t r vs).hasAny t' r' =
      if t' = t ∧ r' = r then vs.hasTwoThirdsAny else hvs.hasAny t' r' := by
  rw [hasAny, voteSetAt_put _ _ _ ht]
  split <;> rfl

variable [Externals]

theorem Inv.hasAny_of_majority (h : hvs.Inv) {hash : Option Hash}
    (hmaj : hvs.majority t r = some hash) : hvs.hasAny t r = true := by
  obtain ⟨vs, hset, hvs'⟩ := Option.bind_eq_some_iff.mp hmaj
  rw [hasAny_eq hset, VoteSet.hasTwoThirdsAny, decide_eq_true_iff]
  exact (h.inv t r vs hset).twoThirds_le_sum hvs'

/-- A set without votes is no quorum. -/
theorem Inv.hasAny_orNew (h : hvs.Inv) :
    (hvs.voteSetOrNew t r).hasTwoThirdsAny = hvs.hasAny t r := by
  unfold voteSetOrNew
  cases hset : hvs.voteSetAt t r with
  | some vs => exact (hasAny_eq hset).symm
  | none =>
    have hquorum : ¬ hvs.validatorSet.twoThirdsMajority ≤ 0 := by
      rw [ValidatorSet.twoThirdsMajority_le_iff h.wf.totalPower_pos]
      have := h.wf.totalPower_pos
      omega
    rw [hasAny_absent hset]
    exact decide_eq_false hquorum

theorem Inv.hasAny_addVote_rejected (h : hvs.Inv) (hbad : (hvs.addVote now vote).1 ≠ .ok true)
    (t : VoteType) (r : Int) :
    (hvs.addVote now vote).2.hasAny t r = hvs.hasAny t r := by
  rcases hvs.addVote_cases now vote with ⟨-, heq | ⟨ht, heq⟩⟩ | ⟨-, -, val, -, -, heq⟩
  · rw [heq]
  · rw [heq, hasAny_put ht]
    split
    · rename_i hcond
      rw [h.hasAny_orNew, hcond.1, hcond.2]
    · rfl
  · exact absurd (by rw [heq]) hbad

/-- Only the set of the vote's type and round changes. -/
theorem hasAny_addVote_other (hother : ¬ (t = vote.type ∧ r = vote.round)) :
    (hvs.addVote now vote).2.hasAny t r = hvs.hasAny t r := by
  rcases hvs.addVote_cases now vote with ⟨-, heq | ⟨ht, heq⟩⟩ | ⟨ht, -, val, -, -, heq⟩
  · rw [heq]
  · rw [heq, hasAny_put ht, if_neg hother]
  · rw [heq, hasAny_put ht, if_neg hother]

theorem majority_addVote_other (hother : ¬ (t = vote.type ∧ r = vote.round)) :
    (hvs.addVote now vote).2.majority t r = hvs.majority t r := by
  rcases hvs.addVote_cases now vote with ⟨-, heq | ⟨ht, heq⟩⟩ | ⟨ht, -, val, -, -, heq⟩
  · rw [heq]
  · rw [heq, majority_put ht, if_neg hother]
  · rw [heq, majority_put ht, if_neg hother]

end HeightVoteSet

/-! ## The property -/

/-- The votes of the current round call for no transition out of the current step. -/
structure Fired (cs : ConsensusState) : Prop where
  prevote : cs.step = .prevote → cs.votes.hasAny .prevote cs.round = false
  majority : cs.step = .prevote ∨ cs.step = .prevoteWait →
    cs.votes.majority .prevote cs.round = none
  precommit : cs.step = .precommit → cs.votes.hasAny .precommit cs.round = false

/-- Fired but for what the vote `v` calls for. -/
structure Stirred (v : Vote) (cs : ConsensusState) : Prop where
  prevote : cs.step = .prevote → ¬ (.prevote = v.type ∧ cs.round = v.round) →
    cs.votes.hasAny .prevote cs.round = false
  majority : cs.step = .prevote ∨ cs.step = .prevoteWait →
    ¬ (.prevote = v.type ∧ cs.round = v.round) → cs.votes.majority .prevote cs.round = none
  precommit : cs.step = .precommit → ¬ (.precommit = v.type ∧ cs.round = v.round) →
    cs.votes.hasAny .precommit cs.round = false

section

variable {cs cs' : ConsensusState} {v : Vote}

/-- The other steps wait for no votes. -/
theorem fired_of_step (hprevote : cs.step ≠ .prevote) (hwait : cs.step ≠ .prevoteWait)
    (hprecommit : cs.step ≠ .precommit) : Fired cs where
  prevote := fun h => absurd h hprevote
  majority := fun h => absurd h (by simp [hprevote, hwait])
  precommit := fun h => absurd h hprecommit

theorem Fired.congr (h : Fired cs) (hstep : cs'.step = cs.step) (hround : cs'.round = cs.round)
    (hvotes : cs'.votes = cs.votes) : Fired cs' where
  prevote := by
    rw [hstep, hround, hvotes]
    exact h.prevote
  majority := by
    rw [hstep, hround, hvotes]
    exact h.majority
  precommit := by
    rw [hstep, hround, hvotes]
    exact h.precommit

theorem fired_prevote_iff [Externals] (h : cs.votes.Inv) (hstep : cs.step = .prevote) :
    Fired cs ↔ cs.votes.hasAny .prevote cs.round = false := by
  refine ⟨fun hf => hf.prevote hstep, fun hany => ⟨fun _ => hany, fun _ => ?_, fun hp => ?_⟩⟩
  · cases hmaj : cs.votes.majority .prevote cs.round with
    | none => rfl
    | some hash =>
      rw [h.hasAny_of_majority hmaj] at hany
      cases hany
  · rw [hstep] at hp
    cases hp

theorem fired_precommit_iff (hstep : cs.step = .precommit) :
    Fired cs ↔ cs.votes.hasAny .precommit cs.round = false := by
  refine ⟨fun hf => hf.precommit hstep, fun hany => ⟨fun hp => ?_, fun hp => ?_, fun _ => hany⟩⟩
  · rw [hstep] at hp
    cases hp
  · rw [hstep] at hp
    simp at hp

/-- A vote for another round calls for nothing in this one. -/
theorem Stirred.fired (h : Stirred v cs) (hround : cs.round ≠ v.round) : Fired cs where
  prevote := fun hstep => h.prevote hstep fun hv => hround hv.2
  majority := fun hstep => h.majority hstep fun hv => hround hv.2
  precommit := fun hstep => h.precommit hstep fun hv => hround hv.2

/-- A vote cast in its own step may call for anything this step waits for. -/
theorem stirred_own (hround : v.round = cs.round)
    (hstep : v.type = .prevote ∧ cs.step = .prevote ∨ v.type = .precommit ∧ cs.step = .precommit) :
    Stirred v cs := by
  rcases hstep with ⟨ht, hs⟩ | ⟨ht, hs⟩
  · have hown : .prevote = v.type ∧ cs.round = v.round := ⟨ht.symm, hround.symm⟩
    refine ⟨fun _ h => absurd hown h, fun _ h => absurd hown h, fun h => ?_⟩
    rw [hs] at h
    cases h
  · have hown : .precommit = v.type ∧ cs.round = v.round := ⟨ht.symm, hround.symm⟩
    refine ⟨fun h => ?_, fun h => ?_, fun _ h => absurd hown h⟩
    · rw [hs] at h
      cases h
    · rw [hs] at h
      simp at h

variable [Externals]

theorem Fired.stirred (h : Fired cs) (now : Int) (v : Vote) :
    Stirred v { cs with votes := (cs.votes.addVote now v).2 } where
  prevote := fun hstep hother => by
    rw [HeightVoteSet.hasAny_addVote_other hother]
    exact h.prevote hstep
  majority := fun hstep hother => by
    rw [HeightVoteSet.majority_addVote_other hother]
    exact h.majority hstep
  precommit := fun hstep hother => by
    rw [HeightVoteSet.hasAny_addVote_other hother]
    exact h.precommit hstep

theorem Fired.rejected (h : Fired cs) (hinv : cs.votes.Inv) {now : Int}
    (hbad : (cs.votes.addVote now v).1 ≠ .ok true) :
    Fired { cs with votes := (cs.votes.addVote now v).2 } where
  prevote := fun hstep => by
    rw [hinv.hasAny_addVote_rejected hbad]
    exact h.prevote hstep
  majority := fun hstep => by
    rw [HeightVoteSet.majority_addVote_rejected hbad]
    exact h.majority hstep
  precommit := fun hstep => by
    rw [hinv.hasAny_addVote_rejected hbad]
    exact h.precommit hstep

end

/-! ## What a vote calls for -/

/-- The vote `v`, now among the votes of `cs`, moves an observer into a step whose quorum
is there. -/
def Overtaken (cs : ConsensusState) (v : Vote) : Prop :=
  match v.type with
  | .prevote =>
    -- the round skip ends in Precommit if there is a majority, otherwise in Prevote
    (cs.round < v.round ∧ cs.votes.hasAny .prevote v.round = true ∧
      (cs.votes.majority .prevote v.round = none ∨ cs.votes.hasAny .precommit v.round = true)) ∨
    (v.round = cs.round ∧ (cs.votes.majority .prevote v.round).isSome = true ∧
      (cs.step = .prevote ∨ cs.step = .prevoteWait) ∧ cs.votes.hasAny .precommit v.round = true)
  | .precommit =>
    cs.round < v.round ∧ cs.votes.hasAny .precommit v.round = true ∧
      (cs.votes.majority .precommit v.round).all isHashEmpty = true
  | _ => False

section

variable {v : Vote}

theorem overtaken_prevote {cs : ConsensusState} (ht : v.type = .prevote) : Overtaken cs v ↔
    (cs.round < v.round ∧ cs.votes.hasAny .prevote v.round = true ∧
      (cs.votes.majority .prevote v.round = none ∨ cs.votes.hasAny .precommit v.round = true)) ∨
    (v.round = cs.round ∧ (cs.votes.majority .prevote v.round).isSome = true ∧
      (cs.step = .prevote ∨ cs.step = .prevoteWait) ∧
      cs.votes.hasAny .precommit v.round = true) := by
  unfold Overtaken
  rw [ht]

theorem overtaken_precommit {cs : ConsensusState} (ht : v.type = .precommit) : Overtaken cs v ↔
    cs.round < v.round ∧ cs.votes.hasAny .precommit v.round = true ∧
      (cs.votes.majority .precommit v.round).all isHashEmpty = true := by
  unfold Overtaken
  rw [ht]

variable [Externals] (env : Env) (sign : VoteType → Option Hash → Node → Node) {n : Node}

/-- The outcomes of `handlePrevoteLocked`: nothing, a round skip, Precommit, PrevoteWait. -/
theorem handlePrevoteLocked_cases (hstirred : Stirred v n.cs) (ht : v.type = .prevote) :
    (Fired n.cs ∧ ¬ Overtaken n.cs v ∧ handlePrevoteLocked env sign v n = n) ∨
    (∃ prevotes, n.cs.votes.voteSetAt .prevote v.round = some prevotes ∧ n.cs.round < v.round ∧
      n.cs.votes.hasAny .prevote v.round = true ∧ handlePrevoteLocked env sign v n =
        (enterNewRoundLocked env sign n.cs.height v.round n).andThen fun n =>
          match n.cs.votes.voteSetAt .prevote v.round with
          | none => n
          | some prevotes =>
            if prevotes.hasTwoThirdsMajority then
              enterPrecommitLocked env sign n.cs.height v.round n
            else enterPrevoteLocked sign n.cs.height v.round n) ∨
    (v.round = n.cs.round ∧ (n.cs.votes.majority .prevote v.round).isSome = true ∧
      (n.cs.step = .prevote ∨ n.cs.step = .prevoteWait) ∧ handlePrevoteLocked env sign v n =
        enterPrecommitLocked env sign n.cs.height n.cs.round n) ∨
    (n.cs.votes.majority .prevote n.cs.round = none ∧ ¬ Overtaken n.cs v ∧
      handlePrevoteLocked env sign v n = n.startPrevoteWait) := by
  have hclear (hskip : ¬ (n.cs.round < v.round ∧ n.cs.votes.hasAny .prevote v.round = true))
      (hhere : v.round = n.cs.round → (n.cs.votes.majority .prevote v.round).isSome = true →
        ¬ (n.cs.step = .prevote ∨ n.cs.step = .prevoteWait)) : ¬ Overtaken n.cs v := by
    rw [overtaken_prevote ht]
    rintro (⟨hr, hany, -⟩ | ⟨hr, hmaj, hstep, -⟩)
    · exact hskip ⟨hr, hany⟩
    · exact hhere hr hmaj hstep
  have hprecommit (hstep : n.cs.step = .precommit) :=
    hstirred.precommit hstep fun h => by rw [ht] at h; cases h.1
  unfold handlePrevoteLocked
  split
  · -- no prevotes of the round: nothing to act on
    rename_i hset
    have hnone := HeightVoteSet.majority_absent hset
    have hfew := HeightVoteSet.hasAny_absent hset
    refine .inl ⟨?_, hclear (by simp [hfew]) (by simp [hnone]), rfl⟩
    by_cases hround : n.cs.round = v.round
    · exact ⟨fun _ => hround ▸ hfew, fun _ => hround ▸ hnone, hprecommit⟩
    · exact hstirred.fired hround
  · rename_i prevotes hset
    have hany := HeightVoteSet.hasAny_eq hset
    have hmaj := HeightVoteSet.majority_isSome hset
    split
    · -- a quorum ahead: the round skip
      rename_i hskip
      exact .inr (.inl ⟨prevotes, hset, hskip.1, hany.trans hskip.2, rfl⟩)
    · rename_i hskip
      rw [← hany] at hskip
      split
      · rename_i hround
        split
        · -- a majority here: Precommit, unless the node is not in one of the two prevote steps
          rename_i hsome
          rw [← hmaj] at hsome
          split
          · rename_i hstep
            exact .inr (.inr (.inl ⟨hround, hsome, hstep, rfl⟩))
          · rename_i hstep
            refine .inl ⟨?_, hclear hskip fun _ _ => hstep, rfl⟩
            simp only [not_or] at hstep
            exact ⟨fun h => absurd h hstep.1, fun h => absurd h (by simp [hstep]), hprecommit⟩
        · -- a quorum without a majority: PrevoteWait, from Prevote only
          rename_i hnone
          rw [← hmaj] at hnone
          have hclear := hclear hskip fun _ h => absurd h hnone
          rw [Option.not_isSome_iff_eq_none, hround] at hnone
          split
          · split
            · rename_i hstep
              refine .inr (.inr (.inr ⟨hnone, hclear, ?_⟩))
              unfold enterPrevoteWaitLocked
              rw [if_neg (by simp [hstep]; decide)]
            · rename_i hstep
              exact .inl ⟨⟨fun h => absurd h hstep, fun _ => hnone, hprecommit⟩, hclear, rfl⟩
          · rename_i hfew
            rw [← hany, Bool.not_eq_true, hround] at hfew
            exact .inl ⟨⟨fun _ => hfew, fun _ => hnone, hprecommit⟩, hclear, rfl⟩
      · -- another round, and no skip
        rename_i hround
        exact .inl ⟨hstirred.fired (Ne.symm hround), hclear hskip fun h => absurd h hround, rfl⟩

/-- The outcomes of `handlePrecommitLocked`: nothing, a commit, a round skip, PrecommitWait. -/
theorem handlePrecommitLocked_cases (hstirred : Stirred v n.cs) (ht : v.type = .precommit) :
    (Fired n.cs ∧ ¬ Overtaken n.cs v ∧ handlePrecommitLocked env sign v n = n) ∨
    (¬ Overtaken n.cs v ∧ handlePrecommitLocked env sign v n =
      enterCommitLocked env sign (n.raiseRound v.round).cs.height (n.raiseRound v.round)) ∨
    (n.cs.round < v.round ∧ n.cs.votes.hasAny .precommit v.round = true ∧ Overtaken n.cs v ∧
      handlePrecommitLocked env sign v n =
        ((enterNewRoundLocked env sign n.cs.height v.round n).andThen fun n =>
          enterPrevoteLocked sign n.cs.height v.round n).andThen fun n =>
            enterPrecommitLocked env sign n.cs.height v.round n) ∨
    (¬ Overtaken n.cs v ∧ handlePrecommitLocked env sign v n = n.startPrecommitWait) := by
  rw [overtaken_precommit ht]
  have hprevote : ¬ (.prevote = v.type ∧ n.cs.round = v.round) := by
    rw [ht]
    exact fun h => by cases h.1
  -- what is left when the vote calls for nothing
  have hcalm (h : n.cs.step = .precommit → n.cs.round = v.round →
      n.cs.votes.hasAny .precommit v.round = false) : Fired n.cs := by
    refine ⟨fun hs => hstirred.prevote hs hprevote, fun hs => hstirred.majority hs hprevote,
      fun hs => ?_⟩
    by_cases hround : n.cs.round = v.round
    · rw [hround]
      exact h hs hround
    · exact hstirred.precommit hs fun hv => hround hv.2
  unfold handlePrecommitLocked
  split
  · rename_i hset
    have hfew := HeightVoteSet.hasAny_absent hset
    exact .inl ⟨hcalm fun _ _ => hfew, by simp [hfew], rfl⟩
  · rename_i precommits hset
    have hany := HeightVoteSet.hasAny_eq hset
    have hmaj := HeightVoteSet.majority_of_voteSetAt hset
    have hopposite : ((n.cs.votes.majority .precommit v.round).any fun hash => !isHashEmpty hash) =
        !(n.cs.votes.majority .precommit v.round).all isHashEmpty := by
      cases n.cs.votes.majority .precommit v.round <;> rfl
    rw [← hmaj, ← hany, hopposite]
    split
    · rename_i hdecided
      exact .inr (.inl ⟨fun h => by simp [h.2.2] at hdecided, rfl⟩)
    · rename_i hundecided
      split
      · rename_i hskip
        exact .inr (.inr (.inl
          ⟨hskip.1, hskip.2, ⟨hskip.1, hskip.2, by simpa using hundecided⟩, rfl⟩))
      · rename_i hskip
        have hclear : ¬ (n.cs.round < v.round ∧ n.cs.votes.hasAny .precommit v.round = true ∧
          (n.cs.votes.majority .precommit v.round).all isHashEmpty = true) :=
            fun h => hskip ⟨h.1, h.2.1⟩
        split
        · rename_i hwait
          refine .inr (.inr (.inr ⟨hclear, ?_⟩))
          unfold enterPrecommitWaitLocked
          rw [if_neg (by simp [hwait.2.2]; decide)]
        · rename_i hwait
          refine .inl ⟨hcalm fun hs hround => ?_, hclear, rfl⟩
          exact eq_false_of_ne_true fun h => hwait ⟨hround.symm, h, hs⟩

end

/-! ## Nodes that vote -/

section

variable [Externals] {n : Node}

/-- A node at rest: nothing is left to fire, and past round 0 it has a validator. -/
structure Rests (n : Node) : Prop where
  sound : Sound n.cs
  fired : Fired n.cs
  voter : 0 < n.cs.round → n.cs.ownValidator ≠ none

/-- The node is at rest unless it has panicked. -/
def Lands (n : Node) : Prop := n.panicked = none → Rests n

theorem Rests.of_cs {m : Node} (h : Rests n) (hcs : m.cs = n.cs) : Rests m :=
  ⟨hcs ▸ h.sound, hcs ▸ h.fired, hcs ▸ h.voter⟩

theorem Rests.takeProposal (h : Rests n) (p : Proposal) (own : Bool) :
    Rests (n.takeProposal p own) := by
  have hcs := n.takeProposal_cs p own
  refine ⟨?_, ?_, ?_⟩
  · rw [hcs]
    exact h.sound.change .proposal
  · rw [hcs]
    exact h.fired.congr rfl rfl rfl
  · rw [hcs]
    exact h.voter

theorem Lands.andThen {f : Node → Node} (h : Lands n)
    (hf : n.panicked = none → Rests n → Lands (f n)) : Lands (n.andThen f) :=
  Node.andThen_of h fun hp => hf hp (h hp)

/-- The node votes, or it is at the start of a height where no prevotes are to be acted on. -/
def Prepared (cs : ConsensusState) (r : Int) : Prop :=
  cs.ownValidator ≠ none ∨ r = 0 ∧ cs.votes.hasAny .prevote r = false

/-- What the recursion through `signAndSendVoteLocked` provides: a vote cast in its own
step is followed by the transition it calls for. -/
def SignFires (sign : VoteType → Option Hash → Node → Node) : Prop :=
  ∀ t hash n, n.panicked = none → Sound n.cs →
    t = .prevote ∧ n.cs.step = .prevote ∧ Prepared n.cs n.cs.round ∨
      t = .precommit ∧ n.cs.step = .precommit ∧ n.cs.ownValidator ≠ none →
    Lands (sign t hash n)

section handlers

variable (env : Env) {n : Node} {sign : VoteType → Option Hash → Node → Node}
  (hsign : SignFires sign) {height r : Int} {vote : Vote}

include hsign

theorem enterPrevoteLocked_lands (h : Rests n) (halive : n.panicked = none)
    (hvoter : n.cs.round = r → Prepared n.cs r) : Lands (enterPrevoteLocked sign height r n) := by
  unfold enterPrevoteLocked
  split
  · exact fun _ => h
  · rename_i hguard
    simp only [not_or, not_not] at hguard
    obtain ⟨_, _, hcs⟩ := startPrevote_frame n
    refine hsign _ _ _ (by simp [halive]) (h.sound.changes (startPrevote_changes n))
      (.inl ⟨rfl, by rw [hcs], ?_⟩)
    rw [hcs]
    exact hguard.2.1 ▸ hvoter hguard.2.1

/-- Entering Precommit, whatever the prevotes call for. -/
theorem startPrecommit_lands (hsound : Sound n.cs) (hvoter : n.cs.ownValidator ≠ none) :
    Lands ((n.startPrecommit env).1.andThen (sign .precommit (n.startPrecommit env).2)) := by
  obtain ⟨_, _, _, _, hcs⟩ := startPrecommit_frame env n
  cases hp : (n.startPrecommit env).1.panicked with
  | some p =>
    rw [Node.andThen_panicked hp]
    intro halive
    rw [hp] at halive
    cases halive
  | none =>
    rw [Node.andThen_alive hp]
    refine hsign _ _ _ hp (hsound.changes (startPrecommit_changes env n))
      (.inr ⟨rfl, by rw [hcs], ?_⟩)
    rw [hcs]
    exact hvoter

theorem enterPrecommitLocked_lands (h : Rests n)
    (hvoter : n.cs.round = r → n.cs.ownValidator ≠ none) :
    Lands (enterPrecommitLocked env sign height r n) := by
  unfold enterPrecommitLocked
  split
  · exact fun _ => h
  · rename_i hguard
    simp only [not_or, not_not] at hguard
    exact startPrecommit_lands env hsign h.sound (hvoter hguard.2.1)

theorem createAndSendProposalLocked_lands (h : Rests n) (hvoter : Prepared n.cs n.cs.round) :
    Lands (createAndSendProposalLocked env sign n) := by
  unfold createAndSendProposalLocked
  split
  · exact fun _ => h
  · rename_i proposer hproposer
    have hasked : Rests (n.requestBlock proposer.name) := h.of_cs (by simp)
    dsimp only
    split
    · exact fun _ => hasked
    · split
      · exact fun _ => hasked
      · generalize hm : ((n.requestBlock _).emit _).walWrite env _ true = m
        have hcs : m.cs = n.cs := by
          rw [← hm]
          simp
        have hrests : Rests m := h.of_cs hcs
        refine Lands.andThen (fun _ => hrests) fun halive' _ => ?_
        refine enterPrevoteLocked_lands hsign (hrests.takeProposal _ true)
          (by simpa using halive') fun _ => ?_
        rw [Node.takeProposal_cs, hcs]
        exact hvoter

theorem enterNewRoundLocked_lands (h : Rests n) (hvoter : Prepared n.cs r) :
    Lands (enterNewRoundLocked env sign height r n) := by
  unfold enterNewRoundLocked
  split
  · exact fun _ => h
  · rename_i hguard
    simp only [not_or, not_lt] at hguard
    have hround : Rests (n.startRound r) :=
      { sound := h.sound.change (.enterRound hguard.2)
        fired := fired_of_step nofun nofun nofun
        voter := fun hr => hvoter.resolve_right fun hzero => hr.ne' hzero.1 }
    dsimp only
    split
    · exact fun _ => hround
    · split
      · exact createAndSendProposalLocked_lands env hsign hround hvoter
      · exact fun _ => hround

/-- A commit ends at round 0 of the next height, where there are no votes. -/
theorem enterCommitLocked_lands (hsound : Sound n.cs) (halive : n.panicked = none)
    (hstep : n.cs.step < .commit) : Lands (enterCommitLocked env sign n.cs.height n) := by
  unfold enterCommitLocked
  rw [if_neg (by simp [hstep])]
  rcases startCommit_cases env n halive with ⟨commit, block, updates, newSet, hc⟩ | hf
  · have hcs : (n.startCommit env).cs = (n.setStep .commit).cs.nextHeight commit newSet := by
      rw [hc.cs]
    have hrests : Rests (n.startCommit env) := by
      refine ⟨hsound.changes (startCommit_changes halive), ?_, ?_⟩
      · rw [hcs]
        exact fired_of_step nofun nofun nofun
      · rw [hcs]
        exact fun hround => absurd hround (lt_irrefl 0)
    refine Lands.andThen (fun _ => hrests) fun _ _ => ?_
    split
    · refine enterNewRoundLocked_lands env hsign hrests (.inr ⟨rfl, ?_⟩)
      rw [hcs, HeightVoteSet.hasAny, HeightVoteSet.voteSetAt_empty (by rfl) (by rfl)]
      rfl
    · exact fun _ => hrests
  · obtain ⟨p, hp⟩ := hf.panicked
    rw [Node.andThen_panicked hp]
    intro halive'
    rw [hp] at halive'
    cases halive'

theorem raisedCommit_lands (hsound : Sound n.cs) (halive : n.panicked = none)
    (hstep : n.cs.step < .commit) (r : Int) :
    Lands (enterCommitLocked env sign (n.raiseRound r).cs.height (n.raiseRound r)) := by
  have hcs := n.raiseRound_cs r
  refine enterCommitLocked_lands env hsign ?_ (by simp [halive]) ?_
  · rw [hcs]
    exact hsound.change (.raise (le_max_left ..))
  · rw [hcs]
    exact hstep

omit hsign in
theorem Rests.of_fired (hsound : Sound n.cs) (hvoter : n.cs.ownValidator ≠ none)
    (hfired : Fired n.cs) : Rests n := ⟨hsound, hfired, fun _ => hvoter⟩

theorem handlePrevoteLocked_lands (hsound : Sound n.cs) (hvoter : n.cs.ownValidator ≠ none)
    (hstirred : Stirred vote n.cs) (ht : vote.type = .prevote) :
    Lands (handlePrevoteLocked env sign vote n) := by
  have hrest := Rests.of_fired hsound hvoter
  rcases handlePrevoteLocked_cases env sign hstirred ht with ⟨hfired, -, heq⟩ |
    ⟨_, -, hround, -, heq⟩ | ⟨-, -, hstep, heq⟩ | ⟨hnone, -, heq⟩
  · rw [heq]
    exact fun _ => hrest hfired
  · -- past round 0 the node is still at this height, where it has a validator
    have hstill (m : Node) (hm : Rests m) (hr : m.cs.round = vote.round) :
      m.cs.ownValidator ≠ none := hm.voter (hr ▸ hsound.round.trans_lt hround)
    rw [heq]
    refine (enterNewRoundLocked_lands env hsign (hrest (hstirred.fired hround.ne))
      (.inl hvoter)).andThen fun halive hrests => ?_
    split
    · exact fun _ => hrests
    · split
      · exact enterPrecommitLocked_lands env hsign hrests (hstill _ hrests)
      · exact enterPrevoteLocked_lands hsign hrests halive fun hr => .inl (hstill _ hrests hr)
  · rw [heq]
    unfold enterPrecommitLocked
    rw [if_neg (by rcases hstep with h | h <;> simp [h] <;> decide)]
    exact startPrecommit_lands env hsign hsound hvoter
  · rw [heq]
    exact fun _ => ⟨hsound.change .step, ⟨nofun, fun _ => hnone, nofun⟩, fun _ => hvoter⟩

theorem handlePrecommitLocked_lands (hsound : Sound n.cs) (halive : n.panicked = none)
    (hvoter : n.cs.ownValidator ≠ none) (hstep : n.cs.step < .commit) (hstirred : Stirred vote n.cs)
    (ht : vote.type = .precommit) :
    Lands (handlePrecommitLocked env sign vote n) := by
  have hrest := Rests.of_fired hsound hvoter
  rcases handlePrecommitLocked_cases env sign hstirred ht with ⟨hfired, -, heq⟩ | ⟨-, heq⟩ |
    ⟨hround, -, -, heq⟩ | ⟨-, heq⟩
  · rw [heq]
    exact fun _ => hrest hfired
  · rw [heq]
    exact raisedCommit_lands env hsign hsound halive hstep _
  · have hstill (m : Node) (hm : Rests m) (hr : m.cs.round = vote.round) :
      m.cs.ownValidator ≠ none := hm.voter (hr ▸ hsound.round.trans_lt hround)
    rw [heq]
    have hentered : Lands (enterNewRoundLocked env sign n.cs.height vote.round n) :=
      enterNewRoundLocked_lands env hsign (hrest (hstirred.fired hround.ne)) (.inl hvoter)
    refine Lands.andThen (hentered.andThen fun halive' hrests => ?_) fun _ hrests => ?_
    · exact enterPrevoteLocked_lands hsign hrests halive' fun hr => .inl (hstill _ hrests hr)
    · exact enterPrecommitLocked_lands env hsign hrests (hstill _ hrests)
  · rw [heq]
    exact fun _ => ⟨hsound.change .step, fired_of_step nofun nofun nofun, fun _ => hvoter⟩

theorem handleAddedVote_lands (hsound : Sound n.cs) (halive : n.panicked = none)
    (hvoter : n.cs.ownValidator ≠ none) (hstep : n.cs.step < .commit) (hstirred : Stirred vote n.cs)
    (ht : vote.type = .prevote ∨ vote.type = .precommit) :
    Lands (handleAddedVote env sign vote n) := by
  unfold handleAddedVote
  rcases ht with ht | ht
  · rw [ht]
    exact handlePrevoteLocked_lands env hsign hsound hvoter hstirred ht
  · rw [ht]
    exact handlePrecommitLocked_lands env hsign hsound halive hvoter hstep hstirred ht

end handlers

end

section

variable [Externals] {env : Env} {n : Node}

/-- A validator whose key signs casts its vote or stops. -/
theorem castOwnVote_voter (hsigns : ∀ v, (env.signVote v).isSome) (t : VoteType)
    (hash : Option Hash) (halive : n.panicked = none) (hvoter : n.cs.ownValidator ≠ none) :
    (∃ vote, Cast n env t hash vote (n.castOwnVote env t hash).1 ∧
      (n.castOwnVote env t hash).2 = some vote) ∨
    (n.castOwnVote env t hash).1.panicked ≠ none ∧ (n.castOwnVote env t hash).2 = none := by
  rcases castOwnVote_cases env t hash halive with heq | hcast | ⟨vote, hfail, hnone⟩
  · obtain ⟨own, hown⟩ := Option.ne_none_iff_exists'.mp hvoter
    obtain ⟨sig, hsig⟩ := Option.isSome_iff_exists.mp
      (hsigns (n.unsignedVote env t hash own.1 own.2))
    refine .inr ⟨?_, by rw [heq]⟩
    unfold Node.castOwnVote at heq ⊢
    simp only [hown, hsig] at heq ⊢
    split
    · rename_i p hp
      rw [hp]
      exact Option.some_ne_none p
    · rename_i hp
      simp only [hp] at heq
      obtain ⟨now, ⟨-, hadd⟩ | ⟨-, p, -, hadd⟩⟩ := addOwnVote_cases env
        { n.unsignedVote env t hash own.1 own.2 with signature := sig }
        ((n.emit
          (.signVote { n.unsignedVote env t hash own.1 own.2 with signature := sig })).walWrite env
            (.ofVote { n.unsignedVote env t hash own.1 own.2 with signature := sig }) true)
      · rw [hadd] at heq
        exact absurd (congrArg Prod.snd heq) (Option.some_ne_none _)
      · rw [hadd]
        exact Option.some_ne_none p
  · exact .inl hcast
  · obtain ⟨p, hp, -⟩ := hfail.panicked
    exact .inr ⟨by rw [hp]; exact Option.some_ne_none p, hnone⟩

/-- Without a validator of its own the node does not vote. -/
theorem castOwnVote_observer (t : VoteType) (hash : Option Hash) (hown : n.cs.ownValidator = none) :
    n.castOwnVote env t hash = (n, none) := by
  unfold Node.castOwnVote
  rw [hown]

/-- The two ends of `signAndSendVoteLocked`: without a vote, and after handling it. -/
theorem lands_of_cast (hsigns : ∀ v, (env.signVote v).isSome) {t : VoteType} {hash : Option Hash}
    {n : Node} (halive : n.panicked = none) (hsound : Sound n.cs)
    (hstep : t = .prevote ∧ n.cs.step = .prevote ∧ Prepared n.cs n.cs.round ∨
      t = .precommit ∧ n.cs.step = .precommit ∧ n.cs.ownValidator ≠ none)
    {f : Vote → Node → Node}
    (hf : ∀ vote m, n.cs.ownValidator ≠ none → Cast n env t hash vote m →
      Lands (f vote m)) :
    Lands (match n.castOwnVote env t hash with
      | (m, none) => m
      | (m, some vote) =>
        (f vote m).andThen fun n => if n.cs.onVote then n.emit (.broadcastVote vote) else n) := by
  by_cases hvoter : n.cs.ownValidator = none
  · rw [castOwnVote_observer t hash hvoter]
    rcases hstep with ⟨-, hstep, hprepared⟩ | ⟨-, -, hsome⟩
    · obtain ⟨hround, hany⟩ := hprepared.resolve_left (not_not.mpr hvoter)
      exact fun _ => ⟨hsound, (fired_prevote_iff hsound.votes hstep).mpr hany,
        fun hpos => absurd hround hpos.ne'⟩
    · exact absurd hvoter hsome
  · rcases castOwnVote_voter hsigns t hash halive hvoter with ⟨vote, hcast, hsome⟩ | ⟨hp, hnone⟩
    · have hhandled := hf vote _ hvoter hcast
      generalize n.castOwnVote env t hash = cast at hcast hsome hhandled
      obtain ⟨m, _⟩ := cast
      cases hsome
      refine hhandled.andThen fun _ hrests => ?_
      split
      · exact fun _ => hrests.of_cs rfl
      · exact fun _ => hrests
    · generalize n.castOwnVote env t hash = cast at hp hnone
      obtain ⟨m, _⟩ := cast
      cases hnone
      exact fun halive' => absurd halive' hp

/-- The recursion: votes cast in their own step leave nothing to fire, by induction on the
stack. -/
theorem signFires (hsigns : ∀ v, (env.signVote v).isSome) (depth : Nat) :
    SignFires (signAndSendVoteLocked env depth) := by
  induction depth with
  | zero =>
    intro t hash n halive hsound hstep
    unfold signAndSendVoteLocked
    exact lands_of_cast hsigns halive hsound hstep (f := fun _ m => m.halt .stackOverflow)
      fun _ _ _ _ halive' => by cases halive'
  | succ depth ih =>
    intro t hash n halive hsound hstep
    unfold signAndSendVoteLocked
    refine lands_of_cast hsigns halive hsound hstep
      (f := handleAddedVote env (signAndSendVoteLocked env depth))
      fun vote m hvoter hcast => ?_
    obtain ⟨now, -, hcs⟩ := hcast.added
    have hvote : vote.type = t := hcast.own.type
    have hround : vote.round = n.cs.round := hcast.own.round
    refine handleAddedVote_lands env ih ?_ (hcast.panicked.trans halive) ?_ ?_ ?_ ?_
    · rw [hcs]
      exact hsound.change .vote
    · rw [hcs]
      exact hvoter
    · rw [hcs]
      rcases hstep with ⟨-, hs, -⟩ | ⟨-, hs, -⟩ <;> rw [hs] <;> decide
    · rw [hcs]
      refine stirred_own hround ?_
      rw [hvote]
      exact hstep.imp (fun h => ⟨h.1, h.2.1⟩) fun h => ⟨h.1, h.2.1⟩
    · rw [hvote]
      exact hstep.imp And.left And.left

theorem handleProposal_lands (hsign : SignFires (sign env)) (hrests : Rests n)
    (hvoter : n.cs.ownValidator ≠ none) (p : Proposal) : Lands (handleProposal env p n) := by
  unfold handleProposal
  split
  · have hwritten : Rests (n.walWrite env (.ofProposal p) true) := hrests.of_cs (by simp)
    refine Lands.andThen (fun _ => hwritten) fun halive' _ => ?_
    refine enterPrevoteLocked_lands hsign (hwritten.takeProposal _ _) (by simpa using halive')
      fun _ => .inl ?_
    rw [Node.takeProposal_cs, Node.walWrite_cs]
    exact hvoter
  · exact fun _ => hrests

theorem handleVote_lands (hsign : SignFires (sign env)) (hsteady : Steady n) (hfired : Fired n.cs)
    (halive : n.panicked = none) (hvoter : n.cs.ownValidator ≠ none) (v : Vote) :
    Lands (handleVote env v n) := by
  have hsound := hsteady.sound
  have hrests := Rests.of_fired hsound hvoter hfired
  have hwritten : Rests (n.walWrite env (.ofVote v) false) := hrests.of_cs (by simp)
  cases hp : (n.walWrite env (.ofVote v) false).panicked with
  | some p =>
    unfold handleVote
    rw [Node.andThen_panicked hp]
    exact fun _ => hwritten
  | none =>
    have hcs : ((n.walWrite env (.ofVote v) false).setVotes (n.receive env v).2).cs =
      { n.cs with votes := (n.receive env v).2 } := received_cs
    by_cases hok : (n.receive env v).1 = .ok true
    · rw [handleVote_added hp hok]
      refine handleAddedVote_lands env hsign ?_ hp ?_ ?_ ?_ ?_
      · rw [hcs]
        exact hsound.change .vote
      · rw [hcs]
        exact hvoter
      · rw [hcs]
        exact (hsteady.calm halive).1
      · rw [hcs]
        exact hfired.stirred _ v
      · exact (hsound.votes.added_addVote hok).type
    · rw [handleVote_rejected hp hok]
      refine fun _ => Rests.of_fired ?_ ?_ ?_
      · rw [hcs]
        exact hsound.change .vote
      · rw [hcs]
        exact hvoter
      · rw [hcs]
        exact hfired.rejected hsound.votes hok

theorem handleTimeout_lands (hsign : SignFires (sign env)) (hrests : Rests n)
    (halive : n.panicked = none) (hvoter : n.cs.ownValidator ≠ none) (ti : TimeoutInfo) :
    Lands (handleTimeout env ti n) := by
  unfold handleTimeout
  split
  · exact fun _ => hrests
  · split
    · split
      · exact enterPrevoteLocked_lands hsign hrests halive fun _ => .inl hvoter
      · exact fun _ => hrests
    · split
      · exact enterPrecommitLocked_lands env hsign hrests fun _ => hvoter
      · exact fun _ => hrests
    · split
      · exact enterNewRoundLocked_lands env hsign hrests (.inl hvoter)
      · exact fun _ => hrests
    · exact enterNewRoundLocked_lands env hsign hrests (.inl hvoter)
    · exact fun _ => hrests

/-- A node with a validator of its own leaves nothing unfired. -/
theorem handle_voter (hsigns : ∀ v, (env.signVote v).isSome) (hsteady : Steady n)
    (hfired : Fired n.cs) (halive : n.panicked = none) (hvoter : n.cs.ownValidator ≠ none)
    (event : Event) : Lands (handle env event n) := by
  have hsign : SignFires (sign env) := signFires hsigns env.depth
  have hrests := Rests.of_fired hsteady.sound hvoter hfired
  unfold handle
  rw [Node.andThen_alive halive]
  cases event with
  | proposal p => exact handleProposal_lands hsign hrests hvoter p
  | vote v => exact handleVote_lands hsign hsteady hfired halive hvoter v
  | timeout ti => exact handleTimeout_lands hsign hrests halive hvoter ti

/-- `Start` leaves nothing unfired. -/
theorem start_lands (hsigns : ∀ v, (env.signVote v).isSome) (l : Launch) :
    Lands (l.start env) := by
  have hfresh : Rests l.fresh :=
    { sound := sound_fresh l
      fired := fired_of_step nofun nofun nofun
      voter := fun hround => absurd hround (lt_irrefl 0) }
  refine enterNewRoundLocked_lands env (signFires hsigns env.depth) hfresh (.inr ⟨rfl, ?_⟩)
  exact HeightVoteSet.hasAny_absent (HeightVoteSet.voteSetAt_empty rfl rfl _ _)

end

end Leaderberry
