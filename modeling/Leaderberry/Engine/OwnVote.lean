import Leaderberry.Engine.Nesting
import Leaderberry.Engine.Arrival

/-!
# Own votes in a working environment

`Works` says that what surrounds a node does its job: the WAL writes, the private
validator signs with the node's key, and two readings of the clock are not further apart
than the allowed drift. Then an own vote is added (`castOwnVote_succeeds`), unless there is
one of this validator already, which stops the process (`castOwnVote_refused`).
`Productive` adds the application.
-/

namespace Leaderberry

section

variable [Externals] {cs : ConsensusState} {index : Nat} {val : NamedValidator} {t : VoteType}

/-- The WAL, the private validator and the clock work. -/
structure Works (env : Env) (cs : ConsensusState) : Prop where
  wal : ∀ msg, env.walWrite msg = true
  vote : ∀ v, ∃ signature, env.signVote v = some signature ∧ ∀ key, cs.privVal = some key →
    verifySignature key (voteSignBytes cs.config.chainID v) signature = true
  clock : ∀ i j, env.clock i ≤ env.clock j + maxTimestampDrift

theorem Works.congr {env : Env} {cs' : ConsensusState} (h : Works env cs)
    (hwiring : cs'.wiring = cs.wiring) : Works env cs' where
  wal := h.wal
  vote := by
    have hkey : cs'.privVal = cs.privVal := congrArg Wiring.privVal hwiring
    have hconfig : cs'.config = cs.config := congrArg Wiring.config hwiring
    rw [hkey, hconfig]
    exact h.vote
  clock := h.clock

/-- The application works as well: it makes blocks, takes every block, and answers with
updates that lead to a validator set. -/
structure Productive (env : Env) (cs : ConsensusState) : Prop extends Works env cs where
  propose : ∀ p, ∃ signature, env.signProposal p = some signature
  create : ∀ request, ∃ block, env.createProposalBlock request = some block ∧
    isHashEmpty (some (blockHash block)) = false
  apply : ∀ vs block commit, ∃ updates newSet, env.applyBlock block commit = some updates ∧
    Node.nextValidatorSet vs updates = .ok newSet

theorem Productive.congr {env : Env} {cs' : ConsensusState} (h : Productive env cs)
    (hwiring : cs'.wiring = cs.wiring) : Productive env cs' :=
  { h with toWorks := h.toWorks.congr hwiring }

theorem Productive.serves {env : Env} (h : Productive env cs) :
    Serves env cs :=
  ⟨h.wal, h.apply _⟩

variable {env : Env} {n : Node}

/-- The own vote is signed and written. -/
theorem castOwnVote_signed (hworks : Works env n.cs) (halive : n.panicked = none)
    (hown : n.cs.ownValidator = some (index, val)) (t : VoteType) (hash : Option Hash) :
    ∃ (vote : Vote) (m : Node), OwnVote n.cs env t hash vote ∧ vote.validatorIndex = index ∧
      (∀ key, n.cs.privVal = some key →
        verifySignature key (voteSignBytes n.cs.config.chainID vote) vote.signature = true) ∧
      m.panicked = none ∧ m.cs = n.cs ∧ vote.timestamp = env.clock n.trace.length ∧
      n.castOwnVote env t hash = m.addOwnVote env vote := by
  obtain ⟨signature, hsign, hverify⟩ := hworks.vote (n.unsignedVote env t hash index val)
  generalize hvote : ({ n.unsignedVote env t hash index val with signature } : Vote) = vote
  have hwritten : ((n.emit (.signVote vote)).walWrite env (.ofVote vote) true).panicked = none :=
    (walWrite_panicked hworks.wal _ _ _).trans halive
  refine ⟨vote, _, ?_, ?_, ?_, hwritten, Node.walWrite_cs .., ?_, ?_⟩
  · subst hvote
    exact ⟨rfl, rfl, rfl, rfl, ⟨val, hown, rfl⟩, hsign⟩
  · rw [← hvote]
    rfl
  · intro key hkey
    rw [← hvote]
    exact hverify key hkey
  · rw [← hvote]
    rfl
  · unfold Node.castOwnVote
    simp only [hown, hsign, hvote, hwritten]

/-- The own vote is added if there is none of this validator. -/
theorem castOwnVote_succeeds (hworks : Works env n.cs) (hsound : Sound n.cs)
    (halive : n.panicked = none) (ht : t = .prevote ∨ t = .precommit)
    (hown : n.cs.ownValidator = some (index, val))
    (hnone : n.cs.votes.voteOf t n.cs.round index = none) (hash : Option Hash) :
    ∃ vote m, n.castOwnVote env t hash = (m, some vote) := by
  obtain ⟨hget, hkey⟩ := ownValidator_key (hsound.validatorSet ▸ hsound.votes.wf) hown
  obtain ⟨vote, m, hvote, rfl, hverify, -, hcs, htime, heq⟩ :=
    castOwnVote_signed hworks halive hown t hash
  obtain ⟨val', hown', hname⟩ := hvote.validator
  cases hown.symm.trans hown'
  have hadds : (m.cs.votes.addVote (env.clock m.trace.length) vote).1 = .ok true := by
    rw [hcs]
    refine hsound.votes.addVote_ok (by rw [hvote.type]; exact ht)
      (hvote.height.trans hsound.height.symm) ⟨val, ?_, hname.symm, ?_⟩
      (by rw [hvote.type, hvote.round]; exact hnone) ?_ ?_
    · rw [hsound.validatorSet]
      exact hget
    · rw [hsound.chainID]
      exact hverify _ hkey
    · rw [htime]
      exact hworks.clock _ _
    · rw [htime]
      exact sub_le_iff_le_add.mpr (hworks.clock _ _)
  rw [heq]
  unfold Node.addOwnVote
  generalize m.cs.votes.addVote (env.clock m.trace.length) vote = added at hadds
  obtain ⟨result, votes⟩ := added
  cases hadds
  exact ⟨vote, _, rfl⟩

/-- A prevote at the start of a height does not stop the node. -/
theorem Lone.alive (hlone : Lone n.cs) (hworks : Works env n.cs) (hsound : Sound n.cs)
    (halive : n.panicked = none) (hash : Option Hash) (depth : Nat) :
    (signAndSendVoteLocked env (depth + 1) .prevote hash n).panicked = none := by
  have hcasts : (n.castOwnVote env .prevote hash).1.panicked = none := by
    cases hown : n.cs.ownValidator with
    | none =>
      unfold Node.castOwnVote
      rw [hown]
      exact halive
    | some own =>
      have hnone : n.cs.votes.voteOf .prevote n.cs.round own.1 = none := by
        rw [HeightVoteSet.voteOf, hlone.empty]
        rfl
      obtain ⟨vote, m, hcast⟩ :=
        castOwnVote_succeeds hworks hsound halive (.inl rfl) hown hnone hash
      rw [hcast]
      exact castOwnVote_alive hcast halive
  refine signAndSendVoteLocked_succ (P := fun k => k.panicked = none) halive
    (fun _ => hcasts) (fun vote m _ hcast => ?_) fun _ _ hk => hk
  unfold handleAddedVote
  rw [hcast.own.type]
  dsimp only
  rw [hlone.handlePrevoteLocked hcast]
  exact hcast.panicked.trans halive

/-- Entering the next height after a commit does not stop the node. -/
theorem Begins.alive (hn : Begins n.cs)
    (hweak : n.cs.hasExecutor = true → ¬ Sole n.cs.validatorSet n.cs) (hworks : Works env n.cs)
    (hsound : Sound n.cs) (halive : n.panicked = none) (depth : Nat) :
    (enterNewRoundLocked env (signAndSendVoteLocked env (depth + 1)) n.cs.height 0 n).panicked =
      none := by
  refine hn.cases (P := fun k => k.panicked = none) hweak halive (fun _ hm _ _ => hm)
    (fun m hwal _ _ _ => ?_) fun m hash hm hl _ hchanges _ => ?_
  · obtain ⟨msg, hmsg⟩ := hwal
    rw [hworks.wal msg] at hmsg
    cases hmsg
  · exact hl.alive (hworks.congr hchanges.wiring) (hsound.changes hchanges) hm hash depth

/-! ## Votes and majorities -/

variable {m : Node} {sign : VoteType → Option Hash → Node → Node} {vote : Vote}
  {hash : Option Hash} {x : Hash} {block : Block} {i : Nat}

/-- An own prevote leads to Precommit if there is a majority, and to the wait at most
otherwise. -/
theorem handlePrevoteLocked_own {vote : Vote} (hround : vote.round = n.cs.round)
    (hstep : n.cs.step = .prevote) :
    (∃ hash, n.cs.votes.majority .prevote n.cs.round = some hash ∧
      handlePrevoteLocked env sign vote n =
        (n.startPrecommit env).1.andThen (sign .precommit (n.startPrecommit env).2)) ∨
    n.cs.votes.majority .prevote n.cs.round = none ∧
      (handlePrevoteLocked env sign vote n = n ∨
        handlePrevoteLocked env sign vote n = n.startPrevoteWait) := by
  unfold handlePrevoteLocked
  rw [hround]
  cases hset : n.cs.votes.voteSetAt .prevote n.cs.round with
  | none => exact .inr ⟨HeightVoteSet.majority_absent hset, .inl rfl⟩
  | some prevotes =>
    rw [HeightVoteSet.majority_of_voteSetAt hset]
    dsimp only
    rw [if_neg fun h => lt_irrefl _ h.1, if_pos rfl]
    have hprecommit : enterPrecommitLocked env sign n.cs.height n.cs.round n =
        (n.startPrecommit env).1.andThen (sign .precommit (n.startPrecommit env).2) := by
      have hlt : n.cs.step < .precommit := by
        rw [hstep]
        decide
      unfold enterPrecommitLocked
      exact if_neg (by simp [hlt])
    have hwait : enterPrevoteWaitLocked n.cs.height n.cs.round n = n.startPrevoteWait := by
      have hlt : n.cs.step < .prevoteWait := by
        rw [hstep]
        decide
      unfold enterPrevoteWaitLocked
      exact if_neg (by simp [hlt])
    cases hmaj : prevotes.twoThirdsMajority with
    | none =>
      have hno : prevotes.hasTwoThirdsMajority = false := by
        simpa [VoteSet.hasTwoThirdsMajority, VoteSet.twoThirdsMajority] using hmaj
      rw [if_neg (by simp [hno]), if_pos hstep, hwait]
      split
      · exact .inr ⟨rfl, .inr rfl⟩
      · exact .inr ⟨rfl, .inl rfl⟩
    | some hash =>
      have hyes : prevotes.hasTwoThirdsMajority = true := by
        have hsome := congrArg Option.isSome hmaj
        simpa [VoteSet.hasTwoThirdsMajority, VoteSet.twoThirdsMajority] using hsome
      rw [if_pos hyes, if_pos (.inl hstep), hprecommit]
      exact .inl ⟨hash, rfl, rfl⟩

/-- With the block of the proposal, a node precommits this block or nothing. -/
theorem startPrecommit_majority (hwal : ∀ msg, env.walWrite msg = true) {hash : Option Hash}
    (hmaj : n.cs.votes.majority .prevote n.cs.round = some hash) {block : Block}
    (hblock : n.cs.proposalBlock = some block)
    (hne : isHashEmpty (some (blockHash block)) = false) :
    (n.startPrecommit env).1.panicked = n.panicked ∧ (n.startPrecommit env).2 =
      if blockHashKey hash = blockHashKey (some (blockHash block)) then some (blockHash block)
      else none := by
  have hmaj' : (n.setStep .precommit).cs.votes.majority .prevote (n.setStep .precommit).cs.round =
    some hash := hmaj
  have hblock' : (n.setStep .precommit).cs.proposalBlock = some block := hblock
  unfold Node.startPrecommit
  simp only [hmaj', hblock']
  by_cases hempty : isHashEmpty hash = true
  · rw [if_pos hempty, if_neg]
    · exact ⟨rfl, rfl⟩
    · intro hkey
      rw [blockHash_of_key hne hkey, hne] at hempty
      cases hempty
  · rw [if_neg hempty]
    by_cases hsame : some (blockHash block) = hash
    · rw [if_pos hsame, if_pos (by rw [hsame])]
      exact ⟨walWrite_panicked hwal _ _ _, hsame.symm⟩
    · rw [if_neg hsame, if_neg fun hkey => hsame (blockHash_of_key hne hkey).symm]
      exact ⟨rfl, rfl⟩

omit [Externals] in
theorem ownValidator_congr {cs cs' : ConsensusState} (hwiring : cs'.wiring = cs.wiring)
    (hset : cs'.validatorSet = cs.validatorSet) : cs'.ownValidator = cs.ownValidator := by
  have hkey : cs'.privVal = cs.privVal := congrArg Wiring.privVal hwiring
  unfold ConsensusState.ownValidator
  rw [hkey, hset]

/-- Without a lock there is none to give up. -/
theorem startPrevote_unlocked (h : n.cs.lockedBlock = none) :
    n.startPrevote = n.setStep .prevote := by
  have hlock : (n.setStep .prevote).cs.lockedBlock = none := h
  unfold Node.startPrevote ConsensusState.decidePrevote
  simp [hlock]

theorem decidePrevote_unlocked {cs : ConsensusState} (h : cs.lockedBlock = none) {block : Block}
    (hblock : cs.proposalBlock = some block) :
    cs.decidePrevote.1 = some (blockHash block) := by
  unfold ConsensusState.decidePrevote
  rw [h, hblock]
  rfl

/-- With the own prevote for `x`, the prevotes of the round are a quorum for `hash`. -/
def PrevoteQuorum (cs : ConsensusState) (x : Hash) (i : Nat) (hash : Option Hash) : Prop :=
  cs.validatorSet.HasQuorum
    (if blockHashKey hash = blockHashKey (some x) then
      insert i (cs.votes.voters .prevote cs.round hash)
    else cs.votes.voters .prevote cs.round hash)

theorem Cast.vote_round (hcast : Cast n env t hash vote m) : vote.round = m.cs.round := by
  obtain ⟨now, -, hcs⟩ := hcast.added
  rw [hcs]
  exact hcast.own.round

theorem Here.cast (hn : Here cs n) (hcast : Cast n env t hash vote m) : Here cs m := by
  obtain ⟨now, -, hcs⟩ := hcast.added
  exact hn.still hcast.still (by rw [hcs]; exact .single .vote)

theorem Cast.ballot_prevote (hcast : Cast n env .prevote hash vote m) (hsound : Sound n.cs) :
    m.cs.ballot = n.cs.ballot := by
  obtain ⟨now, hok, hcs⟩ := hcast.added
  funext i
  rw [hcs, ConsensusState.ballot, (hsound.votes.added_addVote hok).voteOf_eq, if_neg]
  · rfl
  · rintro ⟨ht, -⟩
    rw [hcast.own.type] at ht
    cases ht

theorem Cast.ballot_precommit (hcast : Cast n env .precommit hash vote m) (hsound : Sound n.cs) :
    m.cs.ballot = Function.update n.cs.ballot vote.validatorIndex (some hash) := by
  obtain ⟨now, hok, hcs⟩ := hcast.added
  funext i
  rw [hcs, ConsensusState.ballot, (hsound.votes.added_addVote hok).voteOf_eq, Function.update_apply]
  by_cases hi : i = vote.validatorIndex
  · rw [if_pos hi, if_pos ⟨hcast.own.type.symm, hcast.own.round.symm, hi⟩, Option.map_some,
      hcast.own.blockHash]
  · rw [if_neg hi, if_neg fun h => hi h.2.2]
    rfl

/-- The prevotes after the own one. -/
theorem Cast.prevoteQuorum_iff {x : Hash} (hcast : Cast n env .prevote (some x) vote m)
    (hsound : Sound n.cs) (hash : Option Hash) :
    (∃ hash', m.cs.votes.majority .prevote m.cs.round = some hash' ∧
      blockHashKey hash' = blockHashKey hash) ↔
      PrevoteQuorum n.cs x vote.validatorIndex hash := by
  obtain ⟨now, hok, hcs⟩ := hcast.added
  have hsound' : Sound m.cs := by
    rw [hcs]
    exact hsound.change .vote
  have hvoters : m.cs.votes.voters .prevote m.cs.round hash =
      if blockHashKey hash = blockHashKey (some x) then
        insert vote.validatorIndex (n.cs.votes.voters .prevote n.cs.round hash)
      else n.cs.votes.voters .prevote n.cs.round hash := by
    ext i
    have hadded := hsound.votes.added_addVote hok
    have hnone : n.cs.votes.voteOf .prevote n.cs.round vote.validatorIndex = none := by
      rw [← hcast.own.type, ← hcast.own.round]
      exact hadded.fresh
    rw [HeightVoteSet.mem_voters, hcs]
    show (∃ v, (n.cs.votes.addVote now vote).2.voteOf .prevote n.cs.round i = some v ∧ _) ↔ _
    rw [hadded.voteOf_eq, hcast.own.type, hcast.own.round]
    by_cases hkey : blockHashKey hash = blockHashKey (some x)
    · rw [if_pos hkey, Finset.mem_insert, HeightVoteSet.mem_voters]
      by_cases hi : i = vote.validatorIndex
      · simp [hi, hcast.own.blockHash, hkey]
      · simp [hi]
    · rw [if_neg hkey, HeightVoteSet.mem_voters]
      by_cases hi : i = vote.validatorIndex
      · simp [hi, hcast.own.blockHash, hnone, Ne.symm hkey]
      · simp [hi]
  rw [hsound'.majority_iff, hvoters, hcs]
  rfl

/-! ## A node with the block -/

/-- From `cs` to `cs'` the node has taken `block` and at most cast the precommit `own`. -/
structure Keeps (own : Option (Nat × Option Hash)) (block : Block) (cs cs' : ConsensusState) :
    Prop where
  height : cs'.height = cs.height
  round : cs'.round = cs.round
  validatorSet : cs'.validatorSet = cs.validatorSet
  wiring : cs'.wiring = cs.wiring
  proposalBlock : cs'.proposalBlock = some block
  lockedBlock : cs'.lockedBlock = none ∨ cs'.lockedBlock = some block
  ballot : cs'.ballot = own.elim cs.ballot fun b => Function.update cs.ballot b.1 (some b.2)

omit [Externals] in
theorem Keeps.chosen {own : Option (Nat × Option Hash)} {cs' : ConsensusState}
    (h : Keeps own block cs cs') : cs'.lockedBlock.or cs'.proposalBlock = some block := by
  rcases h.lockedBlock with hlock | hlock
  · rw [hlock, h.proposalBlock]
    rfl
  · rw [hlock]
    rfl

/-- The node rests with the block. -/
structure Holding (own : Option (Nat × Option Hash)) (block : Block) (cs : ConsensusState)
    (n : Node) : Prop where
  alive : n.panicked = none
  steady : Steady n
  keeps : Keeps own block cs n.cs

/-- A node that is about to vote. -/
structure Ready (block : Block) (cs : ConsensusState) (n : Node) : Prop
    extends Holding none block cs n where
  here : Here cs n

namespace Ready

variable (h : Ready block cs n)

include h

theorem own : n.cs.ownValidator = cs.ownValidator :=
  ownValidator_congr h.keeps.wiring h.keeps.validatorSet

theorem voteOf_eq_none (hballot : cs.ballot i = none) :
    n.cs.votes.voteOf .precommit n.cs.round i = none := by
  rw [← ConsensusState.ballot_eq_none, h.keeps.ballot]
  exact hballot

variable (hproductive : Productive env cs) (hne : isHashEmpty (some (blockHash block)) = false)

include hproductive

theorem casts (ht : t = .prevote ∨ t = .precommit) (hown : cs.ownValidator = some (i, val))
    (hfresh : n.cs.votes.voteOf t n.cs.round i = none) (hash : Option Hash) :
    ∃ vote m, n.castOwnVote env t hash = (m, some vote) :=
  castOwnVote_succeeds (hproductive.toWorks.congr h.keeps.wiring) h.steady.sound h.alive ht
    (h.own.trans hown) hfresh hash

/-- A first vote of its own is added and handled. -/
theorem signs {P : Node → Prop} (ht : t = .prevote ∨ t = .precommit)
    (hown : cs.ownValidator = some (i, val)) (hfresh : n.cs.votes.voteOf t n.cs.round i = none)
    {depth : Nat} (hemit : ∀ k v, P k → P (Node.emit k (.broadcastVote v)))
    (hcast : ∀ vote m, Cast n env t hash vote m → vote.validatorIndex = i →
      P (handleAddedVote env (signAndSendVoteLocked env depth) vote m)) :
    P (signAndSendVoteLocked env (depth + 1) t hash n) := by
  refine signAndSendVoteLocked_succ h.alive (fun hnone => ?_) (fun vote m _ hm => ?_) hemit
  · obtain ⟨_, _, hcasts⟩ := h.casts hproductive ht hown hfresh hash
    rw [hcasts] at hnone
    cases hnone
  · obtain ⟨val', hown', -⟩ := hm.own.validator
    cases (h.own.trans hown).symm.trans hown'
    exact hcast vote m hm rfl

/-- The own precommit is stored, or it completes a majority, and the block is committed. -/
theorem precommit_cases {P : Node → Prop} (hown : cs.ownValidator = some (i, val))
    (hballot : cs.ballot i = none) (hlock : OwnLock .precommit hash n) {depth : Nat}
    (hemit : ∀ k v, P k → P (Node.emit k (.broadcastVote v)))
    (hholds : ∀ m, Holding (some (i, hash)) block cs m → P m)
    (hcommits : ∀ m commit updates newSet,
      Committed m env commit block updates newSet (m.startCommit env) → m.panicked = none →
      Here cs m → Keeps (some (i, hash)) block cs m.cs →
      m.cs.validatorSet.HasQuorum (m.cs.counted (blockHash block) ∅) →
      P (m.commitOn env (signAndSendVoteLocked env depth))) :
    P (signAndSendVoteLocked env (depth + 1) .precommit hash n) := by
  refine h.signs hproductive (.inr rfl) hown (h.voteOf_eq_none hballot) hemit
    fun vote m hcast hi => ?_
  have hpoised := hcast.poised h.steady h.alive hlock
  have htype := hcast.own.type
  have hround := hcast.vote_round
  have hkeeps : Keeps (some (i, hash)) block cs m.cs := by
    have hballots := hcast.ballot_precommit h.steady.sound
    rw [h.keeps.ballot, hi] at hballots
    have hkept := h.keeps
    obtain ⟨now, -, hcs⟩ := hcast.added
    rw [hcs] at hballots ⊢
    exact { hkept with ballot := hballots }
  have hsteady := handlePrecommitLocked_steady env (signSteady env depth) hpoised htype
  unfold handleAddedVote
  rw [htype]
  dsimp only
  by_cases hno : ∀ y, m.cs.votes.majority .precommit vote.round = some (some y) →
      isHashEmpty (some y) = true
  · apply hholds
    rcases handlePrecommitLocked_undecided env hround hno with heq | ⟨-, heq⟩
    · rw [heq] at hsteady ⊢
      exact ⟨hpoised.alive, hsteady, hkeeps⟩
    · rw [heq] at hsteady ⊢
      exact ⟨hpoised.alive, hsteady, { hkeeps with }⟩
  · push Not at hno
    obtain ⟨y, hmaj, hempty⟩ := hno
    have hy := eq_false_of_ne_true hempty
    have hraise : m.raiseRound vote.round = m := by
      unfold Node.raiseRound
      rw [if_neg (by omega)]
    obtain ⟨hr, hchosen⟩ := hpoised.choice htype y hmaj hy
    obtain ⟨commit, block', updates, newSet, hc, rfl⟩ :=
      (hpoised.decides hmaj hy).committed (hproductive.congr hkeeps.wiring).serves
        hpoised.sound.votes hpoised.alive hround.le hr hchosen
    have hsame := hc.choice.chosen
    rw [hkeeps.chosen] at hsame
    cases hsame
    rw [handlePrecommitLocked_decided env hmaj hy hpoised.step, hraise]
    refine hcommits m commit updates newSet hc hpoised.alive (h.here.cast hcast) hkeeps ?_
    rw [hround] at hmaj
    rw [ConsensusState.counted, Finset.filter_empty, Finset.union_empty]
    exact (hpoised.sound.majority_block_iff hy).mp hmaj

omit hproductive in
/-- Casting a prevote keeps the node ready to precommit. -/
theorem castPrevote (hcast : Cast n env .prevote hash vote m) : Ready block cs m := by
  have htype := hcast.own.type
  have hpoised := hcast.poised h.steady h.alive fun ht => by cases ht
  have hballots := hcast.ballot_prevote h.steady.sound
  rw [h.keeps.ballot] at hballots
  have hkept := h.keeps
  refine
    { alive := hpoised.alive
      steady := hpoised.steady fun ht => by rw [htype] at ht; cases ht
      keeps := ?_
      here := h.here.cast hcast }
  obtain ⟨now, -, hcs⟩ := hcast.added
  rw [hcs] at hballots ⊢
  exact { hkept with ballot := hballots }

include hne

/-- Entering Precommit keeps the block, and locks on no other. -/
theorem startPrecommit (hmaj : n.cs.votes.majority .prevote n.cs.round = some hash) :
    Ready block cs (n.startPrecommit env).1 ∧ (n.startPrecommit env).2 =
      if blockHashKey hash = blockHashKey (some (blockHash block)) then some (blockHash block)
      else none := by
  obtain ⟨_, _, _, _, hframe⟩ := startPrecommit_frame env n
  obtain ⟨hpanicked, hvote⟩ :=
    startPrecommit_majority hproductive.wal hmaj h.keeps.proposalBlock hne
  have hlocked : (n.startPrecommit env).1.cs.lockedBlock = none ∨
      (n.startPrecommit env).1.cs.lockedBlock = some block := by
    rcases startPrecommit_cases env n with heq | ⟨hash, -, -, heq⟩ | ⟨block', -, -, hblock, heq⟩
    · rw [heq]
      exact h.keeps.lockedBlock
    · rw [heq]
      exact .inl rfl
    · rw [h.keeps.proposalBlock] at hblock
      cases hblock
      rw [heq, Node.writeState, Node.walWrite_cs]
      exact .inr rfl
  have hkept := h.keeps
  refine ⟨⟨⟨hpanicked.trans h.alive, h.steady.startPrecommit env, ?_⟩, ?_⟩, hvote⟩
  · rw [hframe] at hlocked ⊢
    exact { hkept with lockedBlock := hlocked }
  · exact h.here.still (.startPrecommit n env) (startPrecommit_changes env n)

/-- An own prevote for the block leads to the precommit if there is a majority. -/
theorem prevote_cases {P : Node → Prop} (hstep : n.cs.step = .prevote)
    (hown : cs.ownValidator = some (i, val))
    (hfresh : n.cs.votes.voteOf .prevote n.cs.round i = none) {depth : Nat}
    (hemit : ∀ k v, P k → P (Node.emit k (.broadcastVote v)))
    (hnone : (∀ hash, ¬ PrevoteQuorum n.cs (blockHash block) i hash) →
      ∀ m, Holding none block cs m → P m)
    (hsome : ∀ hash m, PrevoteQuorum n.cs (blockHash block) i hash → Ready block cs m →
      ∀ own, OwnLock .precommit own m →
      (∀ hash, PrevoteQuorum n.cs (blockHash block) i hash → own =
        if blockHashKey hash = blockHashKey (some (blockHash block)) then some (blockHash block)
        else none) →
      P (signAndSendVoteLocked env depth .precommit own m)) :
    P (signAndSendVoteLocked env (depth + 1) .prevote (some (blockHash block)) n) := by
  refine h.signs hproductive (.inl rfl) hown hfresh hemit fun vote m hcast hi => ?_
  have hm := h.castPrevote hcast
  have hiff := hcast.prevoteQuorum_iff h.steady.sound
  rw [hi] at hiff
  have hround := hcast.vote_round
  have hstep' : m.cs.step = .prevote := by
    obtain ⟨now, -, hcs⟩ := hcast.added
    rw [hcs]
    exact hstep
  have hsteady := (steady_carried env (signSteady env depth)).handlePrevoteLocked hm.alive hm.steady
    vote
  unfold handleAddedVote
  rw [hcast.own.type]
  dsimp only
  rcases handlePrevoteLocked_own hround hstep' with ⟨hash, hmaj, heq⟩ | ⟨hmaj, heq⟩
  · have hstart : VoteStart env none m (m.startPrecommit env).1 _ _ :=
      .precommit (by rw [hstep']; decide)
    obtain ⟨hready, hvote⟩ := hm.startPrecommit hproductive hne hmaj
    rw [heq, Node.andThen_alive hready.alive]
    refine hsome hash _ ((hiff hash).mp ⟨hash, hmaj, rfl⟩) hready _
      (fun ht y hy => (hstart.locked ht hy).2) fun hash' hquorum => ?_
    obtain ⟨hash'', hmaj', hkey⟩ := (hiff hash').mpr hquorum
    rw [hmaj] at hmaj'
    cases hmaj'
    rw [hvote, hkey]
  · refine hnone (fun hash hquorum => ?_) _ ?_
    · obtain ⟨_, hmaj', -⟩ := (hiff hash).mpr hquorum
      rw [hmaj] at hmaj'
      cases hmaj'
    · rcases heq with heq | heq
      · rw [heq]
        exact hm.toHolding
      · rw [heq] at hsteady ⊢
        have hkept := hm.keeps
        exact ⟨hm.alive, hsteady, { hkept with }⟩

end Ready

end

end Leaderberry
