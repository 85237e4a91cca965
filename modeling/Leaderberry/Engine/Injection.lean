import Leaderberry.Engine.Twin

/-!
# Rejected votes and recovery

`handleVote` writes a vote to the log before `AddVote` looks at it, and `replayVote` takes the
round of every Vote record. So votes that the node rejected are among the records that a
restarted node is restored from.

A restarted node reads the segment that has the marker of the previous height, and no other.
If the rejected votes did not fill that segment they cannot change the lock or the proposal,
and change the round exactly if one of them is the last record that sets it. If they did,
records of the node itself went to the next segment and are not read. Either way the records
in the segment decide (`rejected_votes_recovery_iff`).
-/

namespace Leaderberry

open Wal RecordStream

/-- What recovery restores, the round apart. -/
structure SameButRound (cs₁ cs₂ : ConsensusState) : Prop where
  height : cs₁.height = cs₂.height
  step : cs₁.step = cs₂.step
  lockedRound : cs₁.lockedRound = cs₂.lockedRound
  lockedBlock : cs₁.lockedBlock = cs₂.lockedBlock
  proposal : cs₁.proposal = cs₂.proposal
  proposalBlock : cs₁.proposalBlock = cs₂.proposalBlock

/-- What recovery restores. -/
structure SameRecovery (cs₁ cs₂ : ConsensusState) : Prop extends SameButRound cs₁ cs₂ where
  round : cs₁.round = cs₂.round

/-- Both logs have a record of the height or neither has, and the last record that sets the
round has the same one. -/
structure SameRound (msgs₁ msgs₂ : List Message) : Prop where
  empty : msgs₁ = [] ↔ msgs₂ = []
  round : (lastRound msgs₁).getD 0 = (lastRound msgs₂).getD 0

/-- A field of the last State record. Without one, a log with other records says `without`,
and a log with no records says `fresh`. -/
def stateField {α : Type} (field : ConsensusStateData → α) (without fresh : α)
    (msgs : List Message) : α :=
  if msgs = [] then fresh else ((lastState msgs).map field).getD without

section

variable [Externals]

/-- The block of the last proposal, if the last State record is locked on it. -/
def lockedProposal (msgs : List Message) : Option Block :=
  (lastProposal msgs).bind fun p =>
    if (lastState msgs).bind ConsensusStateData.lockedBlockHash = some (blockHash p.block) then
      some p.block
    else none

/-- The last State and Proposal records of the two logs say the same. -/
structure SameStates (targetHeight : Int) (msgs₁ msgs₂ : List Message) : Prop where
  height : stateField ConsensusStateData.height targetHeight 0 msgs₁ =
    stateField ConsensusStateData.height targetHeight 0 msgs₂
  step : stateField ConsensusStateData.step .newHeight .newHeight msgs₁ =
    stateField ConsensusStateData.step .newHeight .newHeight msgs₂
  lockedRound : stateField ConsensusStateData.lockedRound 0 (-1) msgs₁ =
    stateField ConsensusStateData.lockedRound 0 (-1) msgs₂
  lockedBlock : lockedProposal msgs₁ = lockedProposal msgs₂
  proposal : lastProposal msgs₁ = lastProposal msgs₂

/-- The last records of the two logs, of each kind, say the same. -/
structure SameRecords (targetHeight : Int) (msgs₁ msgs₂ : List Message) : Prop
    extends SameStates targetHeight msgs₁ msgs₂ where
  round : (lastRound msgs₁).getD 0 = (lastRound msgs₂).getD 0

/-- The state is what the records say. -/
structure Restored (targetHeight : Int) (msgs : List Message) (cs : ConsensusState) : Prop where
  height : cs.height = stateField ConsensusStateData.height targetHeight 0 msgs
  step : cs.step = stateField ConsensusStateData.step .newHeight .newHeight msgs
  lockedRound : cs.lockedRound = stateField ConsensusStateData.lockedRound 0 (-1) msgs
  lockedBlock : cs.lockedBlock = lockedProposal msgs
  proposal : cs.proposal = lastProposal msgs
  proposalBlock : cs.proposalBlock = (lastProposal msgs).map Proposal.block
  round : cs.round = (lastRound msgs).getD 0

variable {targetHeight : Int} {cs cs₁ cs₂ : ConsensusState} {msgs msgs₁ msgs₂ : List Message}

/-- A fresh state is restored from the records. -/
theorem restored_fresh {w : Wiring} {vs : ValidatorSet} {result : WALReplayResult}
    (h : Collected targetHeight msgs result) :
    Restored targetHeight msgs
      (if msgs = [] then newConsensusState w vs else (newConsensusState w vs).restore result) := by
  by_cases hnil : msgs = []
  · rw [if_pos hnil, hnil]
    exact ⟨rfl, rfl, rfl, rfl, rfl, rfl, rfl⟩
  · rw [if_neg hnil]
    have hfield : ∀ {α : Type} (field : ConsensusStateData → α) (without fresh : α),
        stateField field without fresh msgs = ((lastState msgs).map field).getD without :=
      fun _ _ _ => if_neg hnil
    constructor <;> dsimp only [ConsensusState.restore]
    · rw [h.height, hfield]
    · rw [h.step, hfield]
    · rw [h.lockedRound, hfield]
    · rw [h.proposal, h.lockedBlockHash]
      unfold lockedProposal ConsensusState.restoredBlock
      cases lastProposal msgs <;> rfl
    · rw [h.proposal]
      cases lastProposal msgs <;> rfl
    · rw [h.proposal]
      cases lastProposal msgs <;> rfl
    · rw [h.round]

/-- The round apart, two states agree exactly if their State and Proposal records do. -/
theorem Restored.sameButRound_iff (h₁ : Restored targetHeight msgs₁ cs₁)
    (h₂ : Restored targetHeight msgs₂ cs₂) :
    SameButRound cs₁ cs₂ ↔ SameStates targetHeight msgs₁ msgs₂ := by
  constructor
  · intro h
    exact
      { height := by rw [← h₁.height, ← h₂.height, h.height]
        step := by rw [← h₁.step, ← h₂.step, h.step]
        lockedRound := by rw [← h₁.lockedRound, ← h₂.lockedRound, h.lockedRound]
        lockedBlock := by rw [← h₁.lockedBlock, ← h₂.lockedBlock, h.lockedBlock]
        proposal := by rw [← h₁.proposal, ← h₂.proposal, h.proposal] }
  · intro h
    exact
      { height := by rw [h₁.height, h₂.height, h.height]
        step := by rw [h₁.step, h₂.step, h.step]
        lockedRound := by rw [h₁.lockedRound, h₂.lockedRound, h.lockedRound]
        lockedBlock := by rw [h₁.lockedBlock, h₂.lockedBlock, h.lockedBlock]
        proposal := by rw [h₁.proposal, h₂.proposal, h.proposal]
        proposalBlock := by rw [h₁.proposalBlock, h₂.proposalBlock, h.proposal] }

theorem Restored.sameRecovery_iff (h₁ : Restored targetHeight msgs₁ cs₁)
    (h₂ : Restored targetHeight msgs₂ cs₂) :
    SameRecovery cs₁ cs₂ ↔ SameRecords targetHeight msgs₁ msgs₂ := by
  have hstates := h₁.sameButRound_iff h₂
  have hround : cs₁.round = cs₂.round ↔
      (lastRound msgs₁).getD 0 = (lastRound msgs₂).getD 0 := by
    rw [h₁.round, h₂.round]
  exact ⟨fun h => ⟨hstates.mp h.toSameButRound, hround.mp h.round⟩,
    fun h => ⟨hstates.mpr h.toSameStates, hround.mpr h.round⟩⟩

/-- Votes change neither State nor Proposal records. -/
theorem sameStates_of_nonVotes (hsame : nonVotes msgs₁ = nonVotes msgs₂)
    (hempty : msgs₁ = [] ↔ msgs₂ = []) : SameStates targetHeight msgs₁ msgs₂ := by
  have hstate : lastState msgs₁ = lastState msgs₂ :=
    lastOf_congr (fun m hm => (Message.not_vote hm).2) hsame
  have hproposal : lastProposal msgs₁ = lastProposal msgs₂ :=
    lastOf_congr (fun m hm => (Message.not_vote hm).1) hsame
  have hfield : ∀ {α : Type} (field : ConsensusStateData → α) (without fresh : α),
      stateField field without fresh msgs₁ = stateField field without fresh msgs₂ := by
    intro α field without fresh
    unfold stateField
    rw [hstate]
    exact if_congr hempty rfl rfl
  refine ⟨hfield _ _ _, hfield _ _ _, hfield _ _ _, ?_, hproposal⟩
  unfold lockedProposal
  rw [hstate, hproposal]

omit [Externals] in
/-- A log with votes only restores locked round 0, an empty one leaves it at -1. -/
theorem lockedRound_of_votes (hne : msgs ≠ []) (hnil : nonVotes msgs = []) :
    stateField ConsensusStateData.lockedRound 0 (-1) msgs = 0 := by
  have hnone : lastState msgs = none := by
    refine (lastOf_nonVotes (fun m hm => (Message.not_vote hm).2) msgs).symm.trans ?_
    rw [hnil]
    rfl
  unfold stateField
  rw [if_neg hne, hnone]
  rfl

/-- Records that differ by votes only say the same if their rounds do. -/
theorem sameRecords_iff_of_nonVotes (hsame : nonVotes msgs₁ = nonVotes msgs₂) :
    SameRecords targetHeight msgs₁ msgs₂ ↔ SameRound msgs₁ msgs₂ := by
  constructor
  · intro h
    refine ⟨⟨fun hnil => ?_, fun hnil => ?_⟩, h.round⟩
    · by_contra hne
      have hround := h.lockedRound
      rw [lockedRound_of_votes hne (by rw [← hsame, hnil]; rfl), hnil] at hround
      cases hround
    · by_contra hne
      have hround := h.lockedRound
      rw [lockedRound_of_votes hne (by rw [hsame, hnil]; rfl), hnil] at hround
      cases hround
  · intro h
    exact ⟨sameStates_of_nonVotes hsame h.empty, h.round⟩

omit [Externals] in
theorem replayed_mono {xs ys : List Message} (h : xs <+: ys) :
    replayed targetHeight xs <+: replayed targetHeight ys := by
  induction xs generalizing ys with
  | nil => exact List.nil_prefix
  | cons m xs ih =>
    obtain ⟨rest, rfl⟩ := h
    have hrest := ih (List.prefix_append xs rest)
    rw [List.cons_append, replayed, replayed]
    by_cases hheight : m.height = targetHeight
    · rw [if_neg (not_not.mpr hheight), if_neg (not_not.mpr hheight)]
      by_cases hdata : m.data = .endHeight
      · rw [if_pos hdata, if_pos hdata]
      · rw [if_neg hdata, if_neg hdata]
        exact List.cons_prefix_cons.mpr ⟨rfl, hrest⟩
    · rw [if_pos hheight, if_pos hheight]
      exact hrest

omit [Externals] in
/-- Of what the node wrote after the only marker, votes apart, the first part is replayed. -/
theorem nonVotes_replayed_recovered [MessageCodec] {low : Nat} {l₀ lg : Log Message}
    {writes : List (Message × Bool)} {c : Nat} (h : Crashed low l₀ writes lg c)
    (hunsynced : ∀ m, (m, false) ∈ writes → ∃ v, m = .ofVote v) (maxSegSize : Int)
    (honly : (lg.journal.map Prod.snd).countP (FileWAL.endsHeight (targetHeight - 1)) ≤ 1) :
    nonVotes (replayed targetHeight
        ((lg.recovered c maxSegSize).sinceMarker (targetHeight - 1))) <+:
      replayed targetHeight (afterFirst (FileWAL.endsHeight (targetHeight - 1))
        (nonVotes (lg.journal.map Prod.snd))) := by
  rw [nonVotes_replayed]
  refine replayed_mono ?_
  have hfilter : ∀ msgs : List Message,
      nonVotes (afterFirst (FileWAL.endsHeight (targetHeight - 1)) msgs) =
        afterFirst (FileWAL.endsHeight (targetHeight - 1)) (nonVotes msgs) :=
    filter_afterFirst fun m hm => not_vote_of_endsHeight hm
  rcases (lg.recovered c maxSegSize).sinceMarker_cases (targetHeight - 1) with
    hnil | ⟨i, -, ⟨m, hm, hends⟩, hsince⟩
  · rw [hnil]
    exact List.nil_prefix
  · -- The crash lost only votes of the segment.
    have hsegment : nonVotes (logOf (lg.surviving c) i) = nonVotes (logOf lg.journal i) := by
      by_cases hi : i = lg.wal.segmentIndex
      · rw [hi, Log.logOf_surviving_last]
        exact h.nonVotes_eq hunsynced
      · rw [Log.logOf_surviving_ne hi]
    have hmarker : ∃ m ∈ logOf lg.journal i, FileWAL.endsHeight (targetHeight - 1) m = true :=
      ⟨m, mem_logOf.mpr (Log.mem_surviving (mem_logOf.mp hm)), hends⟩
    rw [hsince, hfilter]
    show afterFirst _ (nonVotes (logOf (lg.surviving c) i)) <+: _
    rw [hsegment, ← hfilter, ← hfilter]
    exact (afterFirst_logOf h.laid_end.sorted honly hmarker).filter _

/-- Two nodes with a WAL handle the same events, and the second is also sent votes that it
rejects. They stop after the same event; their logs began as the same one and keep what was
synced.

A fresh consensus state is restored alike from both exactly if the last records that follow
the marker in its segment say the same. If there is one marker, the records replayed from one
log are the first of those replayed from the other, votes apart. If they are the same, height,
step, lock and proposal are the same, and the round is exactly if the last records that set it
agree. -/
theorem rejected_votes_recovery_iff [MessageCodec] {l : Launch} (hwal : l.wiring.hasWal = true)
    {n₁ n₂ : Node} (h : TwinRuns l n₁ n₂) {low : Nat} {l₀ lg₁ lg₂ : Log Message} {c₁ c₂ : Nat}
    (h₁ : Crashed low l₀ n₁.walWrites lg₁ c₁) (h₂ : Crashed low l₀ n₂.walWrites lg₂ c₂)
    (targetHeight maxSegSize : Int) {w : Wiring} (hw : w.hasWal = true) (vs : ValidatorSet) :
    let log₁ := lg₁.recovered c₁ maxSegSize
    let log₂ := lg₂.recovered c₂ maxSegSize
    let cs₁ := ((newConsensusState w vs).replayCatchup targetHeight log₁.wal).1
    let cs₂ := ((newConsensusState w vs).replayCatchup targetHeight log₂.wal).1
    let msgs₁ := replayed targetHeight (log₁.sinceMarker (targetHeight - 1))
    let msgs₂ := replayed targetHeight (log₂.sinceMarker (targetHeight - 1))
    (SameRecovery cs₁ cs₂ ↔ SameRecords targetHeight msgs₁ msgs₂) ∧
      ((lg₁.journal.map Prod.snd).countP (FileWAL.endsHeight (targetHeight - 1)) ≤ 1 →
        nonVotes msgs₁ <+: nonVotes msgs₂ ∨ nonVotes msgs₂ <+: nonVotes msgs₁) ∧
      (nonVotes msgs₁ = nonVotes msgs₂ →
        (msgs₁ ≠ [] → msgs₂ ≠ [] → SameButRound cs₁ cs₂) ∧
        (SameRecovery cs₁ cs₂ ↔ SameRound msgs₁ msgs₂)) := by
  intro log₁ log₂ cs₁ cs₂ msgs₁ msgs₂
  obtain ⟨k, htwin⟩ := h.twin
  obtain ⟨env, events₁, events₂, hn₁, hn₂⟩ := h.runs
  have hunsynced₁ : ∀ m, (m, false) ∈ n₁.walWrites → ∃ v, m = .ofVote v := by
    rw [hn₁]
    exact (recorded_run l hwal env events₁).unsynced
  have hunsynced₂ : ∀ m, (m, false) ∈ n₂.walWrites → ∃ v, m = .ofVote v := by
    rw [hn₂]
    exact (recorded_run l hwal env events₂).unsynced
  obtain ⟨result₁, hcollected₁, hcatchup₁⟩ :=
    replayCatchup_recovered (newConsensusState w vs) hw h₁ targetHeight maxSegSize
  obtain ⟨result₂, hcollected₂, hcatchup₂⟩ :=
    replayCatchup_recovered (newConsensusState w vs) hw h₂ targetHeight maxSegSize
  have hrestored₁ : Restored targetHeight msgs₁ cs₁ := by
    rw [show cs₁ = _ from congrArg Prod.fst hcatchup₁]
    exact restored_fresh hcollected₁
  have hrestored₂ : Restored targetHeight msgs₂ cs₂ := by
    rw [show cs₂ = _ from congrArg Prod.fst hcatchup₂]
    exact restored_fresh hcollected₂
  have hjournal : nonVotes (lg₂.journal.map Prod.snd) = nonVotes (lg₁.journal.map Prod.snd) := by
    rw [h₁.journal, h₂.journal, nonVotes_append, nonVotes_append]
    exact congrArg _ htwin.records
  refine ⟨hrestored₁.sameRecovery_iff hrestored₂, fun honly => ?_, fun hsame => ⟨?_, ?_⟩⟩
  · have hmarkers : ∀ msgs : List Message,
        msgs.countP (FileWAL.endsHeight (targetHeight - 1)) =
          (nonVotes msgs).countP (FileWAL.endsHeight (targetHeight - 1)) := by
      intro msgs
      unfold nonVotes
      rw [List.countP_filter]
      refine List.countP_congr fun m _ => ?_
      rw [Bool.and_eq_true]
      exact ⟨fun h => ⟨h, not_vote_of_endsHeight h⟩, fun h => h.1⟩
    have hfirst₁ := nonVotes_replayed_recovered h₁ hunsynced₁ maxSegSize honly
    have hfirst₂ := nonVotes_replayed_recovered h₂ hunsynced₂ maxSegSize
      (by rwa [hmarkers, hjournal, ← hmarkers])
    rw [hjournal] at hfirst₂
    exact List.prefix_or_prefix_of_prefix hfirst₁ hfirst₂
  · intro hne₁ hne₂
    exact (hrestored₁.sameButRound_iff hrestored₂).mpr
      (sameStates_of_nonVotes hsame (iff_of_false hne₁ hne₂))
  · rw [hrestored₁.sameRecovery_iff hrestored₂]
    exact sameRecords_iff_of_nonVotes hsame

end

section runs

attribute [local instance] transparent

def injectionLaunch : Launch :=
  Scenario.launch 1 (Scenario.validatorSet [(1, 1), (2, 9)] Scenario.isOk_weak)

/-- Validator 1 has prevoted the block of the proposal. -/
def untouched : Node :=
  injectionLaunch.run (Scenario.env 1)
    [(Scenario.env 1, .proposal (Scenario.proposal 2 1 0 (Scenario.block 1 5) (-1) []))]

/-- A vote for a round, in the name of validator 2 and without a signature. -/
def forgedVote (round : Int) : Vote :=
  { Scenario.vote 2 1 .prevote 1 round none with signature := ⟨[]⟩ }

/-- It was also sent the forged vote. -/
def injected (round : Int) : Node :=
  handle (Scenario.env 1) (.vote (forgedVote round)) untouched

/-- The forged vote is rejected, and after a restart the node is in its round. -/
theorem forged_vote_sets_round :
    letI := tableCodec (.ofEndHeight 0 :: (injected 7).walRecords)
    let restored (n : Node) : ConsensusState :=
      ((newConsensusState (Scenario.wiring 1 false) injectionLaunch.validatorSet).replayCatchup 1
        ((firstLog.run (n.walWrites.map .ofWrite)).recovered 1000 100000).wal).1
    TwinRuns injectionLaunch untouched (injected 7) ∧
      (untouched.cs.votes.addVote 0 (forgedVote 7)).1 = .error .invalidSignature ∧
      (restored untouched).round = 0 ∧ (restored (injected 7)).round = 7 := by
  intro restored
  have hrejected : (untouched.cs.votes.addVote
      ((Scenario.env 1).clock (untouched.walWrite (Scenario.env 1) (.ofVote (forgedVote 7))
        false).trace.length) (forgedVote 7)).1 = .error .invalidSignature := by decide +kernel
  exact ⟨.extra (.refl injectionLaunch _ _) rfl ⟨_, hrejected⟩, by decide +kernel,
    by decide +kernel, by decide +kernel⟩

/-- A forged vote for the round of the node changes nothing. -/
theorem forged_vote_for_current_round :
    letI := tableCodec (.ofEndHeight 0 :: (injected 0).walRecords)
    let restored (n : Node) : ConsensusState :=
      ((newConsensusState (Scenario.wiring 1 false) injectionLaunch.validatorSet).replayCatchup 1
        ((firstLog.run (n.walWrites.map .ofWrite)).recovered 1000 100000).wal).1
    SameRecovery (restored untouched) (restored (injected 0)) := by
  let _ := tableCodec (.ofEndHeight 0 :: (injected 0).walRecords)
  intro restored
  have hsized : firstLog.Sized := by
    unfold Log.Sized
    decide +kernel
  have hencoded₀ : ∀ e ∈ firstLog.journal,
      (WalCodec.marshal e.2).isSome ∧ msgSize e.2 < maxMsgSize := by decide +kernel
  have hencoded₁ : ∀ x ∈ untouched.walWrites,
      (WalCodec.marshal x.1).isSome ∧ msgSize x.1 < maxMsgSize := by decide +kernel
  have hencoded₂ : ∀ x ∈ (injected 0).walWrites,
      (WalCodec.marshal x.1).isSome ∧ msgSize x.1 < maxMsgSize := by decide +kernel
  have hwhole₁ : tornRecord 1000 (firstLog.run (untouched.walWrites.map .ofWrite)).last =
      none := by decide +kernel
  have hwhole₂ : tornRecord 1000 (firstLog.run ((injected 0).walWrites.map .ofWrite)).last =
      none := by decide +kernel
  have hrejected : (untouched.cs.votes.addVote
      ((Scenario.env 1).clock (untouched.walWrite (Scenario.env 1) (.ofVote (forgedVote 0))
        false).trace.length) (forgedVote 0)).1 = .error .invalidSignature := by decide +kernel
  have htwins : TwinRuns injectionLaunch untouched (injected 0) :=
    .extra (.refl injectionLaunch _ _) rfl ⟨_, hrejected⟩
  have hcrashed₁ : Crashed 0 firstLog untouched.walWrites
      (firstLog.run (untouched.walWrites.map .ofWrite)) 1000 :=
    { laid := firstLog_laid hsized
      started := by decide +kernel
      buf := by decide +kernel
      run := rfl
      readable₀ := fun e he => ⟨(hencoded₀ e he).1, (hencoded₀ e he).2⟩
      readable := fun x hx => ⟨(hencoded₁ x hx).1, (hencoded₁ x hx).2⟩
      number := by decide +kernel
      synced := by decide +kernel
      cut := fun k m hk => by rw [hwhole₁] at hk; cases hk }
  have hcrashed₂ : Crashed 0 firstLog (injected 0).walWrites
      (firstLog.run ((injected 0).walWrites.map .ofWrite)) 1000 :=
    { laid := firstLog_laid hsized
      started := by decide +kernel
      buf := by decide +kernel
      run := rfl
      readable₀ := fun e he => ⟨(hencoded₀ e he).1, (hencoded₀ e he).2⟩
      readable := fun x hx => ⟨(hencoded₂ x hx).1, (hencoded₂ x hx).2⟩
      number := by decide +kernel
      synced := by decide +kernel
      cut := fun k m hk => by rw [hwhole₂] at hk; cases hk }
  have hiff := (rejected_votes_recovery_iff rfl htwins hcrashed₁ hcrashed₂ 1 100000
    (w := Scenario.wiring 1 false) rfl injectionLaunch.validatorSet).2.2 (by decide +kernel)
  exact hiff.2.mpr ⟨by decide +kernel, by decide +kernel⟩

end runs

end Leaderberry
