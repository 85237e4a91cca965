import Mathlib.Data.Finset.Card
import Mathlib.Data.List.Induction
import Mathlib.Data.Prod.Lex
import Leaderberry.Types.PartSet
import Leaderberry.Types.Rotation
import Leaderberry.Wal.Message

/-!
# What is known of a peer (`engine/peer_state.go`)

A `PeerState` follows the height and round that a peer reports, and two bitmaps say which
prevotes and precommits of that round the peer has. The bitmaps are made anew when the peer
moves on and when the validator set changes. `marks_exact` says what a bitmap holds: the
indices that were set and have a validator, with their number beside the words.

`step_cases` says once what a call can do: it marks one vote, it starts with empty bitmaps,
or it leaves position and bitmaps alone. From this follows that the position never goes back
(`position_le_run`) and that a marked bit is a vote that was recorded since the peer entered
its round (`needsVote_exact`).

The times (`lastSeen`, `StartTime`) are left out: nothing modelled here reads them.
-/

namespace Leaderberry

/-! ## Vote bitmaps -/

/-- `VoteBitmap`, with as many words as the validators need. -/
structure VoteBitmap where
  bits : List (BitVec 64)
  count : Nat
  numVals : Nat
  words : bits.length = (numVals + 63) / 64

/-- The validators of a set that may be `nil`. -/
def valCount : Option ValidatorSet → Nat
  | none => 0
  | some valSet => valSet.size

/-- `NewVoteBitmap`. -/
def newVoteBitmap (valSet : Option ValidatorSet) : VoteBitmap where
  bits := emptyBits (valCount valSet)
  count := 0
  numVals := valCount valSet
  words := length_emptyBits _

namespace VoteBitmap

variable {index : Nat} {vb : VoteBitmap}

/-- `Set`. -/
def set (vb : VoteBitmap) (index : Nat) : VoteBitmap :=
  if vb.numVals ≤ index then vb
  else if hasBit vb.bits index then vb
  else
    { vb with
      bits := setBit vb.bits index
      count := vb.count + 1
      words := (length_setBit ..).trans vb.words }

/-- `Has`. -/
def has (vb : VoteBitmap) (index : Nat) : Bool :=
  if vb.numVals ≤ index then false else hasBit vb.bits index

/-- `Missing`. The loop counter is converted to a `uint16`. -/
def missing (vb : VoteBitmap) : List Nat :=
  ((List.range vb.numVals).map (· % 2 ^ 16)).filter fun i => !hasBit vb.bits i

@[simp] theorem numVals_set (vb : VoteBitmap) (index : Nat) :
    (vb.set index).numVals = vb.numVals := by
  unfold set
  split_ifs
  · rfl
  · rfl
  · rfl

theorem has_new (valSet : Option ValidatorSet) (index : Nat) :
    (newVoteBitmap valSet).has index = false := by
  unfold has
  split
  · rfl
  · exact hasBit_emptyBits _ _

/-- Marking an index that has a validator adds this index. -/
theorem has_set (vb : VoteBitmap) (hindex : index < vb.numVals) (j : Nat) :
    (vb.set j).has index = true ↔ vb.has index = true ∨ j = index := by
  unfold has
  rw [numVals_set, if_neg (Nat.not_le.mpr hindex), if_neg (Nat.not_le.mpr hindex), set]
  by_cases hj : vb.numVals ≤ j
  · -- out of range: nothing is marked, and `j` is not `index`
    rw [if_pos hj, or_iff_left (by omega)]
  by_cases hbit : hasBit vb.bits j = true
  · -- already marked
    rw [if_neg hj, if_pos hbit]
    constructor
    · exact .inl
    · rintro (h | rfl)
      · exact h
      · exact hbit
  · have hword : j / 64 < vb.bits.length := by
      rw [vb.words]
      omega
    rw [if_neg hj, if_neg hbit, hasBit_setBit hword, Bool.or_eq_true, decide_eq_true_eq]
    exact or_congr_right eq_comm

theorem has_of_le (hindex : vb.numVals ≤ index) :
    vb.has index = false :=
  if_pos hindex

/-- An index that has a validator has a word. -/
theorem word_lt (vb : VoteBitmap) (hindex : index < vb.numVals) :
    index / 64 < vb.bits.length := by
  rw [vb.words]
  omega

/-- The marked indices are those of `S`, and they are counted. -/
structure Marks (S : Finset Nat) (vb : VoteBitmap) : Prop where
  has : ∀ i, vb.has i = true ↔ i ∈ S
  count : vb.count = S.card

theorem marks_new (valSet : Option ValidatorSet) : Marks ∅ (newVoteBitmap valSet) where
  has i := by simp [has_new]
  count := rfl

/-- The counter goes up exactly if a new index is marked. -/
theorem count_set (vb : VoteBitmap) (index : Nat) :
    (vb.set index).count =
      if index < vb.numVals ∧ vb.has index = false then vb.count + 1 else vb.count := by
  unfold set has
  by_cases hindex : vb.numVals ≤ index
  · rw [if_pos hindex, if_neg fun h => absurd h.1 (Nat.not_lt.mpr hindex)]
  rw [if_neg hindex, if_neg hindex]
  by_cases hbit : hasBit vb.bits index = true
  · rw [if_pos hbit, if_neg fun h => absurd h.2 (by rw [hbit]; decide)]
  · rw [if_neg hbit, if_pos ⟨Nat.not_le.mp hindex, Bool.not_eq_true _ ▸ hbit⟩]

theorem Marks.set {S : Finset Nat} (h : Marks S vb) (index : Nat) :
    Marks (if index < vb.numVals then insert index S else S) (vb.set index) := by
  by_cases hindex : index < vb.numVals
  · rw [if_pos hindex]
    refine ⟨fun i => ?_, ?_⟩
    · rw [Finset.mem_insert, ← h.has]
      rcases Nat.lt_or_ge i vb.numVals with hi | hi
      · rw [has_set vb hi index, or_comm, eq_comm]
      · -- no validator, no mark
        rw [has_of_le (by rwa [numVals_set]), has_of_le hi]
        simp only [Bool.false_eq_true, or_false, false_iff]
        omega
    · rw [count_set, h.count]
      by_cases hmem : index ∈ S
      · have hhas := (h.has index).mpr hmem
        rw [Finset.insert_eq_of_mem hmem, if_neg (by simp [hhas])]
      · have hhas : vb.has index = false := Bool.eq_false_iff.mpr (mt (h.has index).mp hmem)
        rw [Finset.card_insert_of_notMem hmem, if_pos ⟨hindex, hhas⟩]
  · -- out of range: nothing changes
    have hsame : vb.set index = vb := if_pos (Nat.not_lt.mp hindex)
    rw [if_neg hindex, hsame]
    exact h

theorem numVals_foldl_set (indices : List Nat) (vb : VoteBitmap) :
    (indices.foldl set vb).numVals = vb.numVals := by
  induction indices generalizing vb with
  | nil => rfl
  | cons index rest ih => rw [List.foldl_cons, ih, numVals_set]

/-- After any calls of `Set`, the indices that were given and have a validator are marked. -/
theorem marks_foldl_set (valSet : Option ValidatorSet) (indices : List Nat) :
    Marks ((Finset.range (valCount valSet)).filter (· ∈ indices))
      (indices.foldl set (newVoteBitmap valSet)) := by
  induction indices using List.reverseRecOn with
  | nil => simpa using marks_new valSet
  | append_singleton indices index ih =>
    rw [List.foldl_concat]
    have hset := ih.set index
    rw [numVals_foldl_set] at hset
    convert hset using 1
    show _ = if index < valCount valSet then _ else _
    ext i
    split
    · simp only [Finset.mem_filter, Finset.mem_range, List.mem_append, List.mem_singleton,
        Finset.mem_insert]
      constructor
      · rintro ⟨hi, hmem | rfl⟩
        · exact .inr ⟨hi, hmem⟩
        · exact .inl rfl
      · rintro (rfl | ⟨hi, hmem⟩)
        · exact ⟨‹_›, .inr rfl⟩
        · exact ⟨hi, .inl hmem⟩
    · rename_i hindex
      simp only [Finset.mem_filter, Finset.mem_range, List.mem_append, List.mem_singleton]
      refine and_congr_right fun hi => or_iff_left ?_
      rintro rfl
      exact hindex hi

/-- The conversion of the loop counter changes nothing, as the counter is small enough. -/
theorem missing_eq (hsize : vb.numVals ≤ maxValidators) :
    vb.missing = (List.range vb.numVals).filter fun i => !vb.has i := by
  have hcounter : (List.range vb.numVals).map (· % 2 ^ 16) = List.range vb.numVals := by
    conv_rhs => rw [← List.map_id (List.range vb.numVals)]
    refine List.map_congr_left fun i hi => Nat.mod_eq_of_lt ?_
    have hlt : i < vb.numVals := List.mem_range.mp hi
    simp only [maxValidators] at hsize
    omega
  rw [missing, hcounter]
  refine List.filter_congr fun i hi => ?_
  rw [has, if_neg (Nat.not_le.mpr (List.mem_range.mp hi))]

theorem has_foldl_set (valSet : Option ValidatorSet) (indices : List Nat) (i : Nat) :
    (indices.foldl set (newVoteBitmap valSet)).has i = true ↔
      i ∈ indices ∧ i < valCount valSet := by
  rw [(marks_foldl_set valSet indices).has, Finset.mem_filter, Finset.mem_range, and_comm]

theorem missing_foldl_set (valSet : Option ValidatorSet) (hsize : valCount valSet ≤ maxValidators)
    (indices : List Nat) : (indices.foldl set (newVoteBitmap valSet)).missing =
      (List.range (valCount valSet)).filter (· ∉ indices) := by
  have hvals : (indices.foldl set (newVoteBitmap valSet)).numVals = valCount valSet :=
    numVals_foldl_set indices _
  rw [missing_eq (hvals ▸ hsize), hvals]
  refine List.filter_congr fun i hi => ?_
  rw [Bool.eq_iff_iff, Bool.not_eq_true', ← Bool.not_eq_true, decide_eq_true_eq, has_foldl_set]
  exact not_congr (and_iff_left (List.mem_range.mp hi))

/-- Of the first `n` numbers, each is in a list or not. -/
theorem card_add_length (n : Nat) (indices : List Nat) :
    ((Finset.range n).filter (· ∈ indices)).card +
      ((List.range n).filter (· ∉ indices)).length = n := by
  show ((List.range n).filter (· ∈ indices)).length + _ = n
  have hsplit := List.length_eq_length_filter_add (l := List.range n)
    (fun i => decide (i ∈ indices))
  rw [List.length_range] at hsplit
  simpa using hsplit.symm

/-- **What a bitmap holds** after any calls of `Set`: the indices that were given and have a
validator. `Count` is their number, `Missing` lists the others in increasing order, and the
two add up. The words that are looked up are there: `Set` and `Has` look up word `i / 64` of
an index with a validator, `Missing` that of each loop counter, as a `uint16`. -/
theorem marks_exact (valSet : Option ValidatorSet) (hsize : valCount valSet ≤ maxValidators)
    (indices : List Nat) :
    (∀ i, (indices.foldl set (newVoteBitmap valSet)).has i = true ↔
      i ∈ indices ∧ i < valCount valSet) ∧
    (indices.foldl set (newVoteBitmap valSet)).count =
      ((Finset.range (valCount valSet)).filter (· ∈ indices)).card ∧
    (indices.foldl set (newVoteBitmap valSet)).missing =
      (List.range (valCount valSet)).filter (· ∉ indices) ∧
    (indices.foldl set (newVoteBitmap valSet)).count +
      (indices.foldl set (newVoteBitmap valSet)).missing.length = valCount valSet ∧
    ∀ i < valCount valSet,
      i / 64 < (indices.foldl set (newVoteBitmap valSet)).bits.length ∧
      i % 2 ^ 16 / 64 < (indices.foldl set (newVoteBitmap valSet)).bits.length := by
  have hcount := (marks_foldl_set valSet indices).count
  have hmissing := missing_foldl_set valSet hsize indices
  refine ⟨has_foldl_set valSet indices, hcount, hmissing, ?_, fun i hi => ?_⟩
  · rw [hcount, hmissing, card_add_length]
  · have hvals : (indices.foldl set (newVoteBitmap valSet)).numVals = valCount valSet :=
      numVals_foldl_set indices _
    rw [← hvals] at hi
    exact ⟨word_lt _ hi, word_lt _ ((Nat.mod_le i _).trans_lt hi)⟩

/-- One of two validators, marked twice, and two indices out of range. -/
theorem marks_exact_pair :
    ([1, 3, 1, 4].foldl set (newVoteBitmap (some (ValidatorSet.pairSet 1 2)))).missing = [0] ∧
      ([1, 3, 1, 4].foldl set (newVoteBitmap (some (ValidatorSet.pairSet 1 2)))).count = 1 := by
  obtain ⟨-, hcount, hmissing, -⟩ :=
    marks_exact (some (ValidatorSet.pairSet 1 2)) (by decide) [1, 3, 1, 4]
  exact ⟨hmissing.trans (by decide), hcount.trans (by decide)⟩

end VoteBitmap

/-! ## Peers -/

/-- `PeerRoundState`. A peer may send any code as its step. -/
structure PeerRoundState where
  height : Int
  round : Int
  step : Int
  proposal : Bool
  proposalBlockID : Hash
  prevotes : VoteBitmap
  precommits : VoteBitmap
  lastCommitRound : Int
  catchingUp : Bool

/-- The round state at the start of a round, with nothing known of it. -/
def newRoundState (valSet : Option ValidatorSet) (height round step : Int) :
    PeerRoundState where
  height := height
  round := round
  step := step
  proposal := false
  proposalBlockID := ⟨[]⟩
  prevotes := newVoteBitmap valSet
  precommits := newVoteBitmap valSet
  lastCommitRound := 0
  catchingUp := false

/-- `PeerState`. Both bitmaps are for the validator set that is held. -/
structure PeerState where
  valSet : Option ValidatorSet
  prs : PeerRoundState
  numVals_prevotes : prs.prevotes.numVals = valCount valSet
  numVals_precommits : prs.precommits.numVals = valCount valSet

namespace PeerState

/-- `NewPeerState`. -/
def new (valSet : Option ValidatorSet) : PeerState where
  valSet := valSet
  prs := newRoundState valSet 0 0 RoundStep.newHeight.code
  numVals_prevotes := rfl
  numVals_precommits := rfl

/-- `SetHasProposal`. -/
def setHasProposal (ps : PeerState) (height round : Int) (blockHash : Hash) : PeerState :=
  if ps.prs.height ≠ height ∨ ps.prs.round ≠ round then ps
  else { ps with prs := { ps.prs with proposal := true, proposalBlockID := blockHash } }

/-- What `SetHasVote` does with a vote of the peer's round. -/
def mark (ps : PeerState) (vote : Vote) : PeerState :=
  match vote.type with
  | .prevote =>
    { ps with
      prs := { ps.prs with prevotes := ps.prs.prevotes.set vote.validatorIndex }
      numVals_prevotes := (VoteBitmap.numVals_set ..).trans ps.numVals_prevotes }
  | .precommit =>
    { ps with
      prs := { ps.prs with precommits := ps.prs.precommits.set vote.validatorIndex }
      numVals_precommits := (VoteBitmap.numVals_set ..).trans ps.numVals_precommits }
  | _ => ps

/-- `SetHasVote`. -/
def setHasVote (ps : PeerState) (vote : Vote) : PeerState :=
  if vote.height ≠ ps.prs.height then ps
  else if vote.round ≠ ps.prs.round then ps
  else ps.mark vote

/-- `ApplyNewRoundStep`. -/
def applyNewRoundStep (ps : PeerState) (height round step : Int) : PeerState :=
  if height < ps.prs.height then ps
  else if ps.prs.height < height then
    { ps with
      prs := newRoundState ps.valSet height round step
      numVals_prevotes := rfl
      numVals_precommits := rfl }
  else if round < ps.prs.round then ps
  else if ps.prs.round < round then
    -- the commit round and the catching-up mark stay
    { ps with
      prs :=
        { ps.prs with
          round := round
          step := step
          proposal := false
          proposalBlockID := ⟨[]⟩
          prevotes := newVoteBitmap ps.valSet
          precommits := newVoteBitmap ps.valSet }
      numVals_prevotes := rfl
      numVals_precommits := rfl }
  else if ps.prs.step < step then { ps with prs := { ps.prs with step := step } }
  else ps

/-- `ApplyCommit`. -/
def applyCommit (ps : PeerState) (height round : Int) : PeerState :=
  if height ≠ ps.prs.height then ps
  else
    { ps with
      prs := { ps.prs with lastCommitRound := round, step := RoundStep.commit.code } }

/-- `SetCatchingUp`. -/
def setCatchingUp (ps : PeerState) (catching : Bool) : PeerState :=
  { ps with prs := { ps.prs with catchingUp := catching } }

/-- `UpdateValidatorSet`. -/
def updateValidatorSet (ps : PeerState) (valSet : Option ValidatorSet) : PeerState :=
  { ps with
    valSet := valSet
    prs :=
      { ps.prs with prevotes := newVoteBitmap valSet, precommits := newVoteBitmap valSet }
    numVals_prevotes := rfl
    numVals_precommits := rfl }

/-- `NeedsVote`. -/
def needsVote (ps : PeerState) (vote : Vote) : Bool :=
  if vote.height ≠ ps.prs.height ∨ vote.round ≠ ps.prs.round then false
  else
    match vote.type with
    | .prevote => !ps.prs.prevotes.has vote.validatorIndex
    | .precommit => !ps.prs.precommits.has vote.validatorIndex
    | _ => false

end PeerState

/-! ## Calls and runs -/

/-- The calls that change a peer state. -/
inductive PeerCall where
  | setHasProposal (height round : Int) (blockHash : Hash)
  | setHasVote (vote : Vote)
  | applyNewRoundStep (height round step : Int)
  | applyCommit (height round : Int)
  | setCatchingUp (catching : Bool)
  | updateValidatorSet (valSet : Option ValidatorSet)

namespace PeerState

variable {ps ps' : PeerState} {v : Vote}

def step (ps : PeerState) : PeerCall → PeerState
  | .setHasProposal height round blockHash => ps.setHasProposal height round blockHash
  | .setHasVote vote => ps.setHasVote vote
  | .applyNewRoundStep height round step => ps.applyNewRoundStep height round step
  | .applyCommit height round => ps.applyCommit height round
  | .setCatchingUp catching => ps.setCatchingUp catching
  | .updateValidatorSet valSet => ps.updateValidatorSet valSet

/-- The peer state after the calls, from a new one. -/
def run (valSet : Option ValidatorSet) (calls : List PeerCall) : PeerState :=
  calls.foldl step (new valSet)

@[simp] theorem run_concat (valSet : Option ValidatorSet) (calls : List PeerCall)
    (call : PeerCall) : run valSet (calls ++ [call]) = (run valSet calls).step call :=
  List.foldl_concat ..

/-- Height and round of the peer, in lexicographic order. -/
def position (ps : PeerState) : Int ×ₗ Int := toLex (ps.prs.height, ps.prs.round)

/-- The vote is for the height and round the peer is at. -/
def At (ps : PeerState) (v : Vote) : Prop :=
  v.height = ps.prs.height ∧ v.round = ps.prs.round

/-- The bit for a vote's type and index is set. -/
def Marked (ps : PeerState) (v : Vote) : Prop :=
  (v.type = .prevote ∧ ps.prs.prevotes.has v.validatorIndex = true) ∨
    (v.type = .precommit ∧ ps.prs.precommits.has v.validatorIndex = true)

/-- Both bitmaps are empty. -/
def Blank (ps : PeerState) : Prop :=
  ps.prs.prevotes = newVoteBitmap ps.valSet ∧ ps.prs.precommits = newVoteBitmap ps.valSet

/-- Position, validator set and bitmaps are the same. -/
structure Alike (ps ps' : PeerState) : Prop where
  height : ps'.prs.height = ps.prs.height
  round : ps'.prs.round = ps.prs.round
  valSet : ps'.valSet = ps.valSet
  prevotes : ps'.prs.prevotes = ps.prs.prevotes
  precommits : ps'.prs.precommits = ps.prs.precommits

theorem Alike.refl (ps : PeerState) : Alike ps ps := ⟨rfl, rfl, rfl, rfl, rfl⟩

theorem Alike.position_eq (h : Alike ps ps') :
    ps'.position = ps.position := by
  unfold position
  rw [h.height, h.round]

theorem position_lt_iff :
    ps.position < ps'.position ↔ ps.prs.height < ps'.prs.height ∨
      (ps.prs.height = ps'.prs.height ∧ ps.prs.round < ps'.prs.round) :=
  Prod.Lex.toLex_lt_toLex

theorem at_iff :
    ps.At v ↔ ps.position = toLex (v.height, v.round) := by
  unfold At position
  rw [toLex_inj, Prod.mk.injEq]
  exact and_congr eq_comm eq_comm

theorem position_mark (ps : PeerState) (u : Vote) : (ps.mark u).position = ps.position := by
  unfold mark
  split
  · rfl
  · rfl
  · rfl

theorem valSet_mark (ps : PeerState) (u : Vote) : (ps.mark u).valSet = ps.valSet := by
  unfold mark
  split
  · rfl
  · rfl
  · rfl

/-- A report moves the peer forward with empty bitmaps, or leaves position and bitmaps
alone. -/
theorem applyNewRoundStep_cases (ps : PeerState) (height round step : Int) :
    ((ps.applyNewRoundStep height round step).Blank ∧
      ps.position < (ps.applyNewRoundStep height round step).position) ∨
    Alike ps (ps.applyNewRoundStep height round step) := by
  unfold applyNewRoundStep
  by_cases hlow : height < ps.prs.height
  · rw [if_pos hlow]
    exact .inr (.refl ps)
  rw [if_neg hlow]
  by_cases hhigh : ps.prs.height < height
  · -- a new height
    rw [if_pos hhigh]
    exact .inl ⟨⟨rfl, rfl⟩, position_lt_iff.mpr (.inl hhigh)⟩
  rw [if_neg hhigh]
  by_cases hback : round < ps.prs.round
  · rw [if_pos hback]
    exact .inr (.refl ps)
  rw [if_neg hback]
  by_cases hround : ps.prs.round < round
  · -- a new round of the same height
    rw [if_pos hround]
    exact .inl ⟨⟨rfl, rfl⟩, position_lt_iff.mpr (.inr ⟨rfl, hround⟩)⟩
  rw [if_neg hround]
  split
  · exact .inr ⟨rfl, rfl, rfl, rfl, rfl⟩
  · exact .inr (.refl ps)

/-- **What a call can do**: record a vote of the peer's round, start with empty bitmaps at a
later position or for another validator set, or leave position and bitmaps alone. -/
theorem step_cases (ps : PeerState) (call : PeerCall) :
    (∃ u, call = .setHasVote u ∧ ps.At u ∧ ps.step call = ps.mark u) ∨
    ((ps.step call).Blank ∧ ps.position < (ps.step call).position) ∨
    (∃ valSet, call = .updateValidatorSet valSet ∧ (ps.step call).Blank ∧
      (ps.step call).position = ps.position) ∨
    ((∀ u, call = .setHasVote u → ¬ ps.At u) ∧ (∀ valSet, call ≠ .updateValidatorSet valSet) ∧
      Alike ps (ps.step call)) := by
  cases call with
  | setHasVote u =>
    show _ ∨ _ ∨ _ ∨ _ ∧ _ ∧ Alike ps (ps.setHasVote u)
    by_cases hat : ps.At u
    · refine .inl ⟨u, rfl, hat, ?_⟩
      show ps.setHasVote u = _
      rw [setHasVote, if_neg (not_not.mpr hat.1), if_neg (not_not.mpr hat.2)]
    · -- a vote for another height or round is ignored
      refine .inr (.inr (.inr ⟨?_, by rintro valSet ⟨⟩, ?_⟩))
      · rintro u' ⟨⟩
        exact hat
      · unfold setHasVote
        split_ifs with hheight hround
        · exact .refl ps
        · exact .refl ps
        · exact absurd ⟨not_not.mp hheight, not_not.mp hround⟩ hat
  | applyNewRoundStep height round step =>
    rcases applyNewRoundStep_cases ps height round step with hnew | hsame
    · exact .inr (.inl hnew)
    · exact .inr (.inr (.inr ⟨by rintro u ⟨⟩, by rintro valSet ⟨⟩, hsame⟩))
  | updateValidatorSet valSet => exact .inr (.inr (.inl ⟨valSet, rfl, ⟨rfl, rfl⟩, rfl⟩))
  | setHasProposal height round blockHash =>
    refine .inr (.inr (.inr ⟨by rintro u ⟨⟩, by rintro valSet ⟨⟩, ?_⟩))
    show Alike ps (ps.setHasProposal height round blockHash)
    unfold setHasProposal
    split
    · exact .refl ps
    · exact ⟨rfl, rfl, rfl, rfl, rfl⟩
  | applyCommit height round =>
    refine .inr (.inr (.inr ⟨by rintro u ⟨⟩, by rintro valSet ⟨⟩, ?_⟩))
    show Alike ps (ps.applyCommit height round)
    unfold applyCommit
    split
    · exact .refl ps
    · exact ⟨rfl, rfl, rfl, rfl, rfl⟩
  | setCatchingUp catching =>
    exact .inr (.inr (.inr ⟨by rintro u ⟨⟩, by rintro valSet ⟨⟩, rfl, rfl, rfl, rfl, rfl⟩))

theorem position_le_step (ps : PeerState) (call : PeerCall) :
    ps.position ≤ (ps.step call).position := by
  rcases step_cases ps call with ⟨u, -, -, hmark⟩ | ⟨-, hlt⟩ | ⟨_, -, -, heq⟩ | ⟨-, -, hsame⟩
  · rw [hmark, position_mark]
  · exact hlt.le
  · exact heq.ge
  · exact hsame.position_eq.ge

theorem position_le_run (valSet : Option ValidatorSet) (before after : List PeerCall) :
    (run valSet before).position ≤ (run valSet (before ++ after)).position := by
  induction after using List.reverseRecOn with
  | nil => rw [List.append_nil]
  | append_singleton after call ih =>
    rw [← List.append_assoc, run_concat]
    exact ih.trans (position_le_step _ call)

/-! ## Which votes are marked -/

/-- The two votes have one bit: same type, height, round and validator index. -/
structure SameVote (u v : Vote) : Prop where
  type : u.type = v.type
  height : u.height = v.height
  round : u.round = v.round
  index : u.validatorIndex = v.validatorIndex

/-- `SetHasVote` was called with such a vote while the peer was at the vote's height and
round, and the validator set has not been updated since. As a position is never taken again
once it is left, that is a call made since the peer entered it. -/
def Recorded (valSet : Option ValidatorSet) (calls : List PeerCall) (v : Vote) : Prop :=
  ∃ before u after, calls = before ++ .setHasVote u :: after ∧ SameVote u v ∧
    (run valSet before).At v ∧ ∀ valSet', .updateValidatorSet valSet' ∉ after

theorem recorded_concat {valSet : Option ValidatorSet} {calls : List PeerCall} {call : PeerCall} :
    Recorded valSet (calls ++ [call]) v ↔
      (Recorded valSet calls v ∧ ∀ valSet', call ≠ .updateValidatorSet valSet') ∨
      ∃ u, call = .setHasVote u ∧ SameVote u v ∧ (run valSet calls).At v := by
  constructor
  · rintro ⟨before, u, after, hcalls, hsame, hat, hafter⟩
    induction after using List.reverseRecOn with
    | nil =>
      -- the last call is the one that records the vote
      obtain ⟨rfl, ⟨⟩⟩ := List.append_inj' hcalls rfl
      exact .inr ⟨u, rfl, hsame, hat⟩
    | append_singleton after last _ =>
      rw [← List.cons_append, ← List.append_assoc] at hcalls
      obtain ⟨rfl, ⟨⟩⟩ := List.append_inj' hcalls rfl
      refine .inl ⟨⟨before, u, after, rfl, hsame, hat, fun valSet' hmem => ?_⟩, ?_⟩
      · exact hafter valSet' (List.mem_append_left _ hmem)
      · rintro valSet' rfl
        exact hafter valSet' List.mem_concat_self
  · rintro (⟨⟨before, u, after, rfl, hsame, hat, hafter⟩, hcall⟩ | ⟨u, rfl, hsame, hat⟩)
    · refine ⟨before, u, after ++ [call], by simp, hsame, hat, fun valSet' hmem => ?_⟩
      rcases List.mem_append.mp hmem with hmem | hmem
      · exact hafter valSet' hmem
      · exact hcall valSet' (List.mem_singleton.mp hmem).symm
    · exact ⟨calls, u, [], rfl, hsame, hat, fun _ => List.not_mem_nil⟩

theorem not_marked_of_blank (h : ps.Blank) (v : Vote) : ¬ ps.Marked v := by
  rintro (⟨-, hbit⟩ | ⟨-, hbit⟩)
  · rw [h.1, VoteBitmap.has_new] at hbit
    cases hbit
  · rw [h.2, VoteBitmap.has_new] at hbit
    cases hbit

theorem Alike.marked_iff (h : Alike ps ps') (v : Vote) :
    ps'.Marked v ↔ ps.Marked v := by
  unfold Marked
  rw [h.prevotes, h.precommits]

/-- Recording a vote marks the votes with its type and index. -/
theorem marked_mark (htype : v.type = .prevote ∨ v.type = .precommit)
    (hindex : v.validatorIndex < valCount ps.valSet) (u : Vote) :
    (ps.mark u).Marked v ↔
      ps.Marked v ∨ (u.type = v.type ∧ u.validatorIndex = v.validatorIndex) := by
  have hpre := VoteBitmap.has_set ps.prs.prevotes (ps.numVals_prevotes ▸ hindex)
    u.validatorIndex
  have hcom := VoteBitmap.has_set ps.prs.precommits (ps.numVals_precommits ▸ hindex)
    u.validatorIndex
  unfold Marked mark
  rcases htype with htype | htype
  · cases hu : u.type with
    | prevote => simp [htype, hpre]
    | precommit => simp [htype]
    | unknown => simp [htype]
    | other code => simp [htype]
  · cases hu : u.type with
    | prevote => simp [htype]
    | precommit => simp [htype, hcom]
    | unknown => simp [htype]
    | other code => simp [htype]

/-- The marked votes of the peer's round are those recorded since the round was entered. -/
theorem marked_run (valSet : Option ValidatorSet) (calls : List PeerCall)
    (htype : v.type = .prevote ∨ v.type = .precommit) (hat : (run valSet calls).At v)
    (hindex : v.validatorIndex < valCount (run valSet calls).valSet) :
    (run valSet calls).Marked v ↔ Recorded valSet calls v := by
  -- by induction on the calls, the last call first
  induction calls using List.reverseRecOn with
  | nil =>
    refine iff_of_false (not_marked_of_blank ⟨rfl, rfl⟩ v) ?_
    rintro ⟨before, u, after, hcalls, -⟩
    simp at hcalls
  | append_singleton calls call ih =>
    rw [run_concat] at hat hindex ⊢
    rw [recorded_concat]
    rcases step_cases (run valSet calls) call with
      ⟨u, rfl, hu, hmark⟩ | ⟨hblank, hlt⟩ | ⟨valSet', rfl, hblank, -⟩ | ⟨hvote, hupdate, hsame⟩
    · -- a vote of the peer's round is recorded
      rw [hmark] at hat hindex ⊢
      rw [at_iff, position_mark, ← at_iff] at hat
      rw [valSet_mark] at hindex
      rw [marked_mark htype hindex, ih hat hindex]
      refine or_congr (and_iff_left (by rintro valSet' ⟨⟩)).symm ?_
      constructor
      · rintro ⟨htype', hindex'⟩
        exact ⟨u, rfl, ⟨htype', hu.1.trans hat.1.symm, hu.2.trans hat.2.symm, hindex'⟩, hat⟩
      · rintro ⟨_, ⟨⟩, hsame, -⟩
        exact ⟨hsame.type, hsame.index⟩
    · -- a new round: whatever was recorded before was recorded at an earlier position
      refine iff_of_false (not_marked_of_blank hblank v) ?_
      rw [at_iff] at hat
      rintro (⟨⟨before, u, after, rfl, -, hbefore, -⟩, -⟩ | ⟨u, -, -, hbefore⟩)
      · rw [at_iff, ← hat] at hbefore
        exact absurd (position_le_run valSet before _) (hbefore ▸ hlt.not_ge)
      · rw [at_iff, ← hat] at hbefore
        exact absurd hbefore hlt.ne
    · -- a new validator set
      refine iff_of_false (not_marked_of_blank hblank v) ?_
      rintro (⟨-, hcall⟩ | ⟨u, ⟨⟩, -⟩)
      exact hcall valSet' rfl
    · -- nothing that counts has changed
      rw [at_iff, hsame.position_eq, ← at_iff] at hat
      rw [hsame.valSet] at hindex
      rw [hsame.marked_iff, ih hat hindex]
      constructor
      · intro hrecorded
        exact .inl ⟨hrecorded, hupdate⟩
      · rintro (⟨hrecorded, -⟩ | ⟨u, hcall, hsame, -⟩)
        · exact hrecorded
        · exact absurd ⟨hsame.height.trans hat.1, hsame.round.trans hat.2⟩ (hvote u hcall)

theorem needsVote_eq_false_iff (htype : v.type = .prevote ∨ v.type = .precommit) (hat : ps.At v) :
    ps.needsVote v = false ↔ ps.Marked v := by
  unfold needsVote Marked
  rw [if_neg (by rintro (h | h); exacts [h hat.1, h hat.2])]
  rcases htype with htype | htype
  · simp [htype]
  · simp [htype]

/-- **Peer votes are recorded exactly.** The peer's height and round never go back. A vote of
its round with a validator's index is not needed exactly if `SetHasVote` was called with
such a vote since the peer entered the round and since the validator set was updated. -/
theorem needsVote_exact (valSet : Option ValidatorSet) (calls : List PeerCall) :
    (∀ before after, calls = before ++ after →
      (run valSet before).position ≤ (run valSet calls).position) ∧
    ∀ v, (v.type = .prevote ∨ v.type = .precommit) → (run valSet calls).At v →
      v.validatorIndex < valCount (run valSet calls).valSet →
      ((run valSet calls).needsVote v = false ↔ Recorded valSet calls v) := by
  constructor
  · rintro before after rfl
    exact position_le_run valSet before after
  · intro v htype hat hindex
    rw [needsVote_eq_false_iff htype hat, marked_run valSet calls htype hat hindex]

/-! ## A peer that enters a round -/

/-- A prevote of round 0. -/
def prevoteOf (index : Nat) (height : Int) : Vote :=
  { type := .prevote, height := height, round := 0, blockHash := none, timestamp := 0,
    validator := ⟨none⟩, validatorIndex := index, signature := ⟨[]⟩ }

/-- The peer has both prevotes of height 0 and enters height 1. There it reports one prevote,
and the other one of height 7. -/
def roundCalls : List PeerCall :=
  [.setHasVote (prevoteOf 0 0), .setHasVote (prevoteOf 1 0), .applyNewRoundStep 1 0 1,
    .setHasVote (prevoteOf 0 1), .setHasVote (prevoteOf 1 7)]

theorem needsVote_exact_recorded :
    (run (some (ValidatorSet.pairSet 1 1)) roundCalls).needsVote (prevoteOf 0 1) = false ∧
    ¬ Recorded (some (ValidatorSet.pairSet 1 1)) roundCalls (prevoteOf 1 1) := by
  have hexact := (needsVote_exact (some (ValidatorSet.pairSet 1 1)) roundCalls).2
  have hat (index : Nat) :
      (run (some (ValidatorSet.pairSet 1 1)) roundCalls).At (prevoteOf index 1) := ⟨rfl, rfl⟩
  constructor
  · refine (hexact (prevoteOf 0 1) (.inl rfl) (hat 0) (by decide)).mpr ?_
    refine ⟨roundCalls.take 3, prevoteOf 0 1, roundCalls.drop 4, rfl, ⟨rfl, rfl, rfl, rfl⟩,
      ⟨rfl, rfl⟩, fun valSet' hmem => ?_⟩
    cases List.mem_singleton.mp hmem
  · rw [← hexact (prevoteOf 1 1) (.inl rfl) (hat 1) (by decide)]
    decide

/-- Type and index alone do not decide: a vote with them that is for another height is not
recorded. -/
theorem needsVote_stale :
    ¬ ∀ (valSet : Option ValidatorSet) (calls : List PeerCall) (v : Vote),
      (v.type = .prevote ∨ v.type = .precommit) → (run valSet calls).At v →
      v.validatorIndex < valCount (run valSet calls).valSet →
      ((run valSet calls).needsVote v = false ↔
        ∃ before u after, calls = before ++ .setHasVote u :: after ∧ u.type = v.type ∧
          u.validatorIndex = v.validatorIndex ∧ (run valSet before).At v ∧
          ∀ valSet', .updateValidatorSet valSet' ∉ after) := by
  intro h
  have hneeds := (h (some (ValidatorSet.pairSet 1 1)) [.setHasVote (prevoteOf 0 7)]
    (prevoteOf 0 0) (.inl rfl) ⟨rfl, rfl⟩ (by decide)).mpr
      ⟨[], prevoteOf 0 7, [], rfl, rfl, rfl, ⟨rfl, rfl⟩, fun _ => List.not_mem_nil⟩
  exact absurd hneeds (by decide)

end PeerState

end Leaderberry
