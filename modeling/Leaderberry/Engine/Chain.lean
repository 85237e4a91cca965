import Leaderberry.Engine.View
import Leaderberry.Engine.Scenario

/-!
# The committed chain

The `ApplyBlock` calls of a run form a chain (`committed_chain`): one call per height,
starting at the first height and without a gap, each with a certificate for its block
under the validators in force, and each certificate is the last commit of the next
height, which `CreateProposalBlock` gets there.

`MakeCommit` produces such certificates from a precommit majority
(`VoteSet.Inv.certifies`). For the chain, a building block of a micro-step either
commits or leaves height, last commit and calls alone (`Still`).
-/

namespace Leaderberry

section

variable [Externals] {cs : ConsensusState} {commit : Commit} {n m : Node} {env : Env}
  {input : Option Event} {block : Block} {updates : List ValidatorUpdate} {newSet : ValidatorSet}
  {l : Launch} {x : ConsensusState × Block × Commit}

/-! ## Certificates -/

/-- The signatures of a commit are verified precommits for its block, from distinct
validators that hold `TwoThirdsMajority` power together. -/
structure Commit.Certifies (chainID : GoString) (vs : ValidatorSet) (c : Commit) : Prop where
  distinct : (c.signatures.map CommitSig.validatorIndex).Nodup
  power : vs.twoThirdsMajority ≤ (c.signatures.map fun sig => vs.power sig.validatorIndex).sum
  verified : ∀ sig ∈ c.signatures, sig.blockHash = some c.blockHash ∧
    ∃ val, sig.Verified chainID vs c val

namespace VoteSet

variable {vs : VoteSet}

/-- The signature that `MakeCommit` takes from a vote. -/
def commitSig (vote : Vote) : CommitSig where
  validatorIndex := vote.validatorIndex
  signature := vote.signature
  timestamp := vote.timestamp
  blockHash := vote.blockHash

/-- The votes that `MakeCommit` takes signatures from. -/
def votesForBlock (vs : VoteSet) (x : Hash) : List Vote :=
  (vs.votes.entries.map Sigma.snd).filter fun vote =>
    !isHashEmpty vote.blockHash && vote.blockHash == some x

omit [Externals] in
theorem makeCommit_some {c : Commit} (h : vs.makeCommit = some c) :
    vs.voteType = .precommit ∧ vs.twoThirdsMajority = some (some c.blockHash) ∧
      isHashEmpty (some c.blockHash) = false ∧ c.height = vs.height ∧ c.round = vs.round ∧
      c.signatures.Perm ((vs.votesForBlock c.blockHash).map commitSig) := by
  unfold makeCommit at h
  split at h
  · cases h
  rename_i htype
  split at h
  · cases h
  · cases h
  · rename_i x hmaj
    split at h
    · cases h
    · rename_i hne
      cases h
      exact ⟨not_not.mp htype, hmaj, by simpa using hne, rfl, rfl, List.perm_insertionSort _ _⟩

omit [Externals] in
theorem mem_votesForBlock {x : Hash} {vote : Vote} :
    vote ∈ vs.votesForBlock x ↔ (∃ i, vs.votes.lookup i = some vote) ∧
      isHashEmpty vote.blockHash = false ∧ vote.blockHash = some x := by
  unfold votesForBlock
  rw [List.mem_filter, List.mem_map, Bool.and_eq_true, Bool.not_eq_true', beq_iff_eq]
  refine and_congr_left fun _ => ⟨?_, ?_⟩
  · rintro ⟨⟨i, v⟩, hmem, rfl⟩
    exact ⟨i, AList.mem_lookup_iff.mpr hmem⟩
  · rintro ⟨i, hi⟩
    exact ⟨⟨i, vote⟩, AList.mem_lookup_iff.mp hi, rfl⟩

/-- The votes for the block list each of their voters once. -/
theorem Inv.votesForBlock_nodup (h : vs.Inv) (x : Hash) :
    ((vs.votesForBlock x).map Vote.validatorIndex).Nodup := by
  have hkeys : (vs.votes.entries.map Sigma.snd).map Vote.validatorIndex = vs.votes.keys := by
    rw [List.map_map]
    refine List.map_congr_left fun entry hentry => ?_
    exact (h.verified entry.1 entry.2 (AList.mem_lookup_iff.mpr hentry)).1
  refine List.Nodup.sublist (List.filter_sublist.map _) ?_
  rw [hkeys]
  exact vs.votes.keys_nodup

theorem Inv.votesForBlock_voters (h : vs.Inv) {x : Hash} (hne : isHashEmpty (some x) = false) :
    ((vs.votesForBlock x).map Vote.validatorIndex).toFinset =
      vs.votersFor (blockHashKey (some x)) := by
  ext i
  rw [List.mem_toFinset, List.mem_map, mem_votersFor]
  constructor
  · rintro ⟨vote, hvote, rfl⟩
    obtain ⟨⟨i, hi⟩, -, hx⟩ := mem_votesForBlock.mp hvote
    obtain ⟨rfl, -⟩ := h.verified i vote hi
    exact ⟨vote, hi, by rw [hx]⟩
  · rintro ⟨vote, hi, hkey⟩
    have hx := blockHash_of_key hne hkey
    exact ⟨vote, mem_votesForBlock.mpr ⟨⟨i, hi⟩, by rw [hx]; exact hne, hx⟩,
      (h.verified i vote hi).1⟩

/-- **`MakeCommit` certifies.** -/
theorem Inv.certifies (h : vs.Inv) {c : Commit} (hc : vs.makeCommit = some c) :
    c.Certifies vs.chainID vs.validatorSet := by
  obtain ⟨htype, hmaj, hne, hheight, hround, hperm⟩ := makeCommit_some hc
  have hindices : (c.signatures.map CommitSig.validatorIndex).Perm
      ((vs.votesForBlock c.blockHash).map Vote.validatorIndex) := by
    have hmap := hperm.map CommitSig.validatorIndex
    rw [List.map_map] at hmap
    exact hmap
  refine { distinct := ?_, power := ?_, verified := fun sig hsig => ?_ }
  · exact hindices.nodup_iff.mpr (h.votesForBlock_nodup _)
  · have hsum := (hindices.map vs.validatorSet.power).sum_eq
    rw [List.map_map] at hsum
    have hquorum := h.majority_quorum hmaj
    have hle := (h.wf.isQuorum_iff hquorum.subset).mp hquorum
    rw [← h.votesForBlock_voters hne, Electorate.power,
      List.sum_toFinset _ (h.votesForBlock_nodup _)] at hle
    exact hle.trans hsum.ge
  · obtain ⟨vote, hvote, rfl⟩ := List.mem_map.mp (hperm.subset hsig)
    obtain ⟨⟨i, hi⟩, -, hx⟩ := mem_votesForBlock.mp hvote
    obtain ⟨-, val, hval⟩ := h.verified i vote hi
    -- the vote that the signature stands for is the stored one
    have heq : (commitSig vote).vote c val = vote := by
      cases vote
      simp only [CommitSig.vote, commitSig, Vote.mk.injEq, and_true, true_and]
      exact ⟨(hval.type.trans htype).symm, hheight.trans hval.height.symm,
        hround.trans hval.round.symm, hval.name⟩
    refine ⟨hx, val, hval.found, ?_⟩
    rw [heq]
    exact verifyVoteSignature_of_verify hval.signature

end VoteSet

/-- The certificate that a commit works with. -/
theorem Sound.certifies (h : Sound cs) : ∀ {k : Nat},
    ConsensusState.findCommit cs.votes k = some commit →
      commit.height = cs.height ∧ commit.Certifies cs.config.chainID cs.validatorSet := by
  have hat : ∀ r, ConsensusState.commitAt cs.votes r = some commit →
      commit.height = cs.height ∧ commit.Certifies cs.config.chainID cs.validatorSet := by
    intro r hr
    unfold ConsensusState.commitAt at hr
    split at hr
    · cases hr
    rename_i precommits hset
    split at hr
    · cases hr
    split at hr
    · cases hr
    have hown := h.votes.owns _ _ _ hset
    have hcert := (h.votes.inv _ _ _ hset).certifies hr
    rw [hown.chainID, hown.validatorSet, h.chainID, h.validatorSet] at hcert
    obtain ⟨-, -, -, hheight, -⟩ := VoteSet.makeCommit_some hr
    exact ⟨hheight.trans (hown.height.trans h.height), hcert⟩
  intro k hk
  induction k with
  | zero => exact hat 0 hk
  | succ k ih =>
    unfold ConsensusState.findCommit at hk
    split at hk
    · rename_i commit' hcommit
      cases hk
      exact hat _ hcommit
    · exact ih hk

/-! ## The calls of `ApplyBlock` -/

/-- The call that an action is, if it is one. -/
def Action.call : Action → Option (Block × Commit)
  | .applyBlock b c _ => some (b, c)
  | _ => none

/-- The `ApplyBlock` calls so far, each with the state at that moment, newest first. -/
def Node.calls (n : Node) : List (ConsensusState × Block × Commit) :=
  n.trace.filterMap fun x => x.2.call.map fun call => (x.1, call)

omit [Externals] in
/-- Calls are only added. -/
theorem Node.calls_subset (h : n.trace <:+ m.trace) : n.calls ⊆ m.calls := by
  intro x hx
  obtain ⟨y, hy, heq⟩ := List.mem_filterMap.mp hx
  exact List.mem_filterMap.mpr ⟨y, h.subset hy, heq⟩

omit [Externals] in
theorem Node.calls_append {l : List (ConsensusState × Action)} (h : m.trace = l ++ n.trace)
    (hnew : ∀ x ∈ l, x.2.call = none) : m.calls = n.calls := by
  rw [Node.calls, h, List.filterMap_append, ← Node.calls, List.filterMap_eq_nil_iff.mpr]
  · rfl
  · intro x hx
    rw [hnew x hx]
    rfl

/-- Height, last commit and calls stay, and a stopped node stays stopped. -/
structure Still (n m : Node) : Prop where
  height : m.cs.height = n.cs.height
  lastCommit : m.cs.lastCommit = n.cs.lastCommit
  calls : m.calls = n.calls
  panicked : n.panicked ≠ none → m.panicked ≠ none

namespace Still

variable {n m k : Node}

omit [Externals] in
theorem trans (h : Still n m) (h' : Still m k) : Still n k where
  height := h'.height.trans h.height
  lastCommit := h'.lastCommit.trans h.lastCommit
  calls := h'.calls.trans h.calls
  panicked := fun hn => h'.panicked (h.panicked hn)

variable (n)

section

omit [Externals]

theorem emit {a : Action} (ha : a.call = none) : Still n (n.emit a) :=
  ⟨rfl, rfl, Node.calls_append (l := [_]) rfl (by simpa using ha), id⟩

theorem setStep (s : RoundStep) : Still n (n.setStep s) := ⟨rfl, rfl, rfl, id⟩

theorem setVotes (votes : HeightVoteSet) : Still n (n.setVotes votes) := ⟨rfl, rfl, rfl, id⟩

theorem halt (p : Panic) : Still n (n.halt p) := ⟨rfl, rfl, rfl, fun _ => Option.some_ne_none _⟩

theorem startRound (r : Int) : Still n (n.startRound r) :=
  ⟨rfl, rfl, Node.calls_append (l := [_]) (n.startRound_trace r) (by simp [Action.call]), id⟩

theorem raiseRound (r : Int) : Still n (n.raiseRound r) := by
  refine ⟨by simp, by simp, ?_, by simp⟩
  unfold Node.raiseRound
  split <;> rfl

theorem requestBlock (proposer : AccountName) : Still n (n.requestBlock proposer) := by
  unfold Node.requestBlock
  split
  · exact ⟨rfl, rfl, rfl, id⟩
  · exact emit n rfl

theorem takeProposal (p : Proposal) (own : Bool) : Still n (n.takeProposal p own) := by
  refine ⟨by simp, by simp, ?_, by simp⟩
  refine Node.calls_append (by rw [Node.takeProposal_trace, List.append_cons]) fun x hx => ?_
  rcases List.mem_append.mp hx with hx | hx
  · split at hx
    · rw [List.mem_singleton.mp hx]
      rfl
    · cases hx
  · rw [List.mem_singleton.mp hx]
    rfl

theorem walWrite (env : Env) (msg : Message) (sync : Bool) :
    Still n (n.walWrite env msg sync) := by
  unfold Node.walWrite
  split
  · exact ⟨rfl, rfl, rfl, id⟩
  · split
    · exact emit n rfl
    · exact halt n _

end

theorem startPrevote : Still n n.startPrevote := by
  rcases n.startPrevote_cases with ⟨-, heq⟩ | ⟨-, heq⟩
  · rw [heq]
    exact setStep n _
  · rw [heq]
    exact ((setStep n _).trans (emit _ (a := .unlockPol) rfl)).trans ⟨rfl, rfl, rfl, id⟩

theorem startPrecommit (env : Env) : Still n (n.startPrecommit env).1 := by
  rcases startPrecommit_cases env n with heq | ⟨hash, -, -, heq⟩ | ⟨block, -, -, -, heq⟩
  · rw [heq]
    exact setStep n _
  · rw [heq]
    exact ((setStep n _).trans (emit _ (a := .unlockNil) rfl)).trans ⟨rfl, rfl, rfl, id⟩
  · rw [heq]
    have hlock : Still n ((n.setStep .precommit).lockOn block) :=
      ⟨rfl, rfl, Node.calls_append (l := [_]) rfl (by simp [Action.call]), id⟩
    exact hlock.trans (walWrite _ env _ true)

end Still

theorem Cast.still {t : VoteType} {hash : Option Hash} {vote : Vote} (h : Cast n env t hash vote m)
    :
    Still n m := by
  obtain ⟨now, -, hcs⟩ := h.added
  refine ⟨by rw [hcs], by rw [hcs], ?_, by rw [h.panicked]; exact id⟩
  refine Node.calls_append (h.trace.trans (List.append_cons _ _ _)) fun x hx => ?_
  rcases List.mem_append.mp hx with hx | hx
  · rcases List.mem_cons.mp hx with rfl | hx
    · rfl
    · rw [mem_syncEntry hx]
      rfl
  · rw [List.mem_singleton.mp hx]
    rfl

theorem Still.castOwnVote (env : Env) (t : VoteType) (hash : Option Hash)
    (halive : n.panicked = none) : Still n (n.castOwnVote env t hash).1 := by
  rcases castOwnVote_cases env t hash halive with heq | ⟨v, hcast, -⟩ | ⟨v, hfail, -⟩
  · rw [heq]
    exact ⟨rfl, rfl, rfl, id⟩
  · exact hcast.still
  · obtain ⟨votes, hcs⟩ := castOwnVote_frame env t hash halive
    refine ⟨by rw [hcs], by rw [hcs], ?_, fun hn => absurd halive hn⟩
    rcases hfail.trace with ht | ht
    · exact Node.calls_append (l := [_]) ht (by simp [Action.call])
    · refine Node.calls_append (ht.trans (List.append_cons _ _ _)) fun x hx => ?_
      rcases List.mem_append.mp hx with hx | hx
      · rw [mem_syncEntry hx]
        rfl
      · rw [List.mem_singleton.mp hx]
        rfl

/-- A building block of a micro-step commits, or nothing moves. -/
theorem Atom.still (ha : Atom env input n m) :
    Still n m ∨ n.panicked = none ∧ m = n.startCommit env := by
  cases ha with
  | @emit a hneutral =>
    refine .inl (.emit n ?_)
    cases a <;> first | rfl | exact hneutral.elim
  | halt => exact .inl (.halt n _)
  | startRound => exact .inl (.startRound n _)
  | takeProposal => exact .inl (.takeProposal n _ _)
  | startPrevote => exact .inl (.startPrevote n)
  | startPrevoteWait => exact .inl ((Still.setStep n _).trans (.emit _ rfl))
  | startPrecommit => exact .inl (.startPrecommit n env)
  | startPrecommitWait => exact .inl ((Still.setStep n _).trans (.emit _ rfl))
  | castOwnVote halive => exact .inl (.castOwnVote env _ _ halive)
  | receiveVote => exact .inl (.setVotes n _)
  | raiseRound => exact .inl (.raiseRound n _)
  | startCommit halive => exact .inr ⟨halive, rfl⟩

omit [Externals] in
theorem calls_advanceHeight (commit : Commit) (newSet : ValidatorSet) (n : Node) :
    (n.advanceHeight commit newSet).calls = n.calls := by
  unfold Node.advanceHeight
  dsimp only
  split
  · rfl
  · exact Node.calls_append (l := [_]) rfl (by simp [Action.call])

theorem Committed.calls_eq (hc : Committed n env commit block updates newSet m) : m.calls =
      if n.cs.hasExecutor then ((n.setStep .commit).cs, block, commit) :: n.calls
      else n.calls := by
  have hexec : (n.setStep .commit).cs.hasExecutor = n.cs.hasExecutor := rfl
  rw [hc.eq, calls_advanceHeight, Node.calls, List.filterMap_append, filterMap_syncEntry _ _ _ rfl,
    applyEntry, hexec]
  split <;> rfl

theorem Committed.calls (hc : Committed n env commit block updates newSet m)
    (hexec : n.cs.hasExecutor = true) :
    m.calls = ((n.setStep .commit).cs, block, commit) :: n.calls :=
  hc.calls_eq.trans (if_pos hexec)

theorem CommitFailed.calls (hf : CommitFailed n m) : m.calls = n.calls ∨
    ∃ commit block, CommitChoice n.cs commit block ∧
      m.calls = ((n.setStep .commit).cs, block, commit) :: n.calls := by
  rcases hf.trace with ht | ⟨commit, block, result, hchoice, ht⟩
  · exact .inl (by rw [Node.calls, ht, ← Node.calls])
  · exact .inr ⟨commit, block, hchoice, by rw [Node.calls, ht]; rfl⟩

/-- The states of a node after a building block. -/
theorem Atom.mem_states (ha : Atom env input n m) (h : cs ∈ m.states) :
    cs = m.cs ∨ (∃ s, cs = (n.setStep s).cs) ∨ cs ∈ n.states := by
  rcases List.mem_cons.mp h with rfl | h
  · exact .inl rfl
  obtain ⟨s, l, hl, hnew⟩ := ha.entries
  obtain ⟨x, hx, rfl⟩ := List.mem_map.mp h
  rw [hl] at hx
  rcases List.mem_append.mp hx with hx | hx
  · rcases (hnew x hx).eq_or with heq | heq
    · exact .inl heq
    · exact .inr (.inl ⟨s, heq⟩)
  · exact .inr (.inr (List.mem_cons_of_mem _ (List.mem_map_of_mem hx)))

/-! ## The chain -/

/-- The call has a certificate for its block, for the height and under the validators
of the moment. -/
structure CertifiedCall (x : ConsensusState × Block × Commit) : Prop where
  hash : blockHash x.2.1 = x.2.2.blockHash
  height : x.2.2.height = x.1.height
  certifies : x.2.2.Certifies x.1.config.chainID x.1.validatorSet

/-- In this state the last commit is the one of the call at the height before, or the
one the node was started with. -/
structure LastOf (l : Launch) (calls : List (ConsensusState × Block × Commit))
    (cs : ConsensusState) : Prop where
  first : cs.height = l.height → cs.lastCommit = l.lastCommit
  later : ∀ x ∈ calls, cs.height = x.1.height + 1 → cs.lastCommit = some x.2.2

/-- One call per height, from the first height on. -/
def Consecutive (l : Launch) (calls : List (ConsensusState × Block × Commit)) : Prop :=
  calls.reverse.map (fun x => x.1.height) =
    (List.range calls.length).map fun k : Nat => l.height + k

omit [Externals] in
theorem Consecutive.cons {calls : List (ConsensusState × Block × Commit)} (h : Consecutive l calls)
    (hx : x.1.height = l.height + calls.length) : Consecutive l (x :: calls) := by
  unfold Consecutive at h ⊢
  rw [List.reverse_cons, List.map_append, h, List.length_cons, List.range_succ, List.map_append]
  simp [hx]

omit [Externals] in
theorem Consecutive.lt {calls : List (ConsensusState × Block × Commit)} (h : Consecutive l calls)
    (hx : x ∈ calls) :
    x.1.height < l.height + calls.length := by
  have hmem : x.1.height ∈ calls.reverse.map fun x => x.1.height :=
    List.mem_map_of_mem (List.mem_reverse.mpr hx)
  rw [h] at hmem
  obtain ⟨k, hk, heq⟩ := List.mem_map.mp hmem
  have := List.mem_range.mp hk
  omega

/-- The calls of a node form a chain. -/
structure Chained (l : Launch) (n : Node) : Prop where
  sound : Sound n.cs
  executor : n.cs.hasExecutor = true
  past : Past n
  consecutive : Consecutive l n.calls
  height : n.panicked = none → n.cs.height = l.height + n.calls.length
  first : l.height ≤ n.cs.height
  certified : ∀ x ∈ n.calls, CertifiedCall x
  last : ∀ cs ∈ n.states, LastOf l n.calls cs

namespace Chained

variable (h : Chained l n)

include h

theorem height_le (hcs : cs ∈ n.states) : cs.height ≤ n.cs.height := by
  rcases List.mem_cons.mp hcs with rfl | hcs
  · exact le_rfl
  · obtain ⟨x, hx, rfl⟩ := List.mem_map.mp hcs
    exact (h.past x hx).height

/-- The chain after one more call. -/
theorem call (halive : n.panicked = none) (hchoice : CommitChoice n.cs commit block) :
    let calls := ((n.setStep .commit).cs, block, commit) :: n.calls
    Consecutive l calls ∧ (∀ x ∈ calls, CertifiedCall x) ∧
      (∀ cs ∈ n.states, LastOf l calls cs) ∧ ∀ s, LastOf l calls (n.setStep s).cs := by
  have hheight := h.height halive
  have hold : ∀ cs ∈ n.states,
      LastOf l (((n.setStep .commit).cs, block, commit) :: n.calls) cs := by
    intro cs hcs
    refine ⟨(h.last cs hcs).first, fun x hx heq => ?_⟩
    rcases List.mem_cons.mp hx with rfl | hx
    · -- no state of the node is above its height
      have hle := h.height_le hcs
      rw [heq] at hle
      change n.cs.height + 1 ≤ n.cs.height at hle
      omega
    · exact (h.last cs hcs).later x hx heq
  refine ⟨h.consecutive.cons hheight, fun x hx => ?_, hold, fun s => ?_⟩
  · rcases List.mem_cons.mp hx with rfl | hx
    · obtain ⟨hcommit, hcert⟩ := h.sound.certifies hchoice.found
      exact ⟨hchoice.hash, hcommit, hcert⟩
    · exact h.certified x hx
  · have hself := hold n.cs (List.mem_cons_self ..)
    exact ⟨hself.first, hself.later⟩

/-- An atom that is no commit makes no call. -/
theorem still (ha : Atom env input n m) (hexec : m.cs.hasExecutor = true)
    (hstill : Still n m) : Chained l m := by
  refine { sound := h.sound.atom ha, executor := hexec, past := h.past.atom h.sound ha,
           consecutive := ?_, height := ?_, first := ?_, certified := ?_,
           last := fun cs hcs => ?_ }
  · rw [hstill.calls]
    exact h.consecutive
  · intro hm
    have hn : n.panicked = none := by
      by_contra hn
      exact hstill.panicked hn hm
    rw [hstill.height, hstill.calls]
    exact h.height hn
  · rw [hstill.height]
    exact h.first
  · rw [hstill.calls]
    exact h.certified
  · have hself := h.last n.cs (List.mem_cons_self ..)
    rw [hstill.calls]
    rcases ha.mem_states hcs with rfl | ⟨s, rfl⟩ | hold
    · refine ⟨?_, ?_⟩
      · rw [hstill.height, hstill.lastCommit]
        exact hself.first
      · rw [hstill.height, hstill.lastCommit]
        exact hself.later
    · exact ⟨hself.first, hself.later⟩
    · exact h.last cs hold

/-- A commit that goes through makes one call, and the node is one height further. -/
theorem committed (ha : Atom env input n m) (hexec : m.cs.hasExecutor = true)
    (halive : n.panicked = none) (hc : Committed n env commit block updates newSet m) :
    Chained l m := by
  obtain ⟨hconsecutive, hcertified, hlast, hstep⟩ := h.call halive hc.choice
  have hcalls := hc.calls h.executor
  have hheight := h.height halive
  have hcs : m.cs = (n.setStep .commit).cs.nextHeight commit newSet := by
    rw [hc.cs]
  have hnext : m.cs.height = n.cs.height + 1 := by
    rw [hcs]
    rfl
  refine { sound := h.sound.atom ha, executor := hexec, past := h.past.atom h.sound ha,
           consecutive := ?_, height := fun _ => ?_, first := ?_, certified := ?_,
           last := fun cs hmem => ?_ }
  · rw [hcalls]
    exact hconsecutive
  · rw [hcalls, hnext, List.length_cons, hheight]
    push_cast
    omega
  · rw [hnext]
    exact h.first.trans (by omega)
  · rw [hcalls]
    exact hcertified
  · rw [hcalls]
    rcases ha.mem_states hmem with rfl | ⟨s, rfl⟩ | hold
    · refine ⟨fun heq => ?_, fun x hx heq => ?_⟩
      · have := h.first
        omega
      · rcases List.mem_cons.mp hx with rfl | hx
        · rw [hcs]
          rfl
        · -- older calls are further below
          have := h.consecutive.lt hx
          omega
    · exact hstep s
    · exact hlast cs hold

/-- A commit that fails stops the node, with or without its call. -/
theorem commitFailed (ha : Atom env input n m) (hexec : m.cs.hasExecutor = true)
    (halive : n.panicked = none) (hf : CommitFailed n m) : Chained l m := by
  obtain ⟨p, hp⟩ := hf.panicked
  have hnext : m.cs.height = n.cs.height := by rw [hf.cs]; rfl
  have hcalls : Consecutive l m.calls ∧ (∀ x ∈ m.calls, CertifiedCall x) ∧
      (∀ cs ∈ n.states, LastOf l m.calls cs) ∧ ∀ s, LastOf l m.calls (n.setStep s).cs := by
    rcases hf.calls with hsame | ⟨commit, block, hchoice, hnew⟩
    · have hself := h.last n.cs (List.mem_cons_self ..)
      rw [hsame]
      exact ⟨h.consecutive, h.certified, h.last, fun s => ⟨hself.first, hself.later⟩⟩
    · rw [hnew]
      exact h.call halive hchoice
  obtain ⟨hconsecutive, hcertified, hlast, hstep⟩ := hcalls
  refine { sound := h.sound.atom ha, executor := hexec, past := h.past.atom h.sound ha,
           consecutive := hconsecutive, height := fun hm => ?_, first := hnext ▸ h.first,
           certified := hcertified, last := fun cs hmem => ?_ }
  · rw [hp] at hm
    cases hm
  · rcases ha.mem_states hmem with rfl | ⟨s, rfl⟩ | hold
    · rw [hf.cs]
      exact hstep .commit
    · exact hstep s
    · exact hlast cs hold

theorem atom (ha : Atom env input n m) : Chained l m := by
  have hexec : m.cs.hasExecutor = true :=
    (congrArg Wiring.hasExecutor ha.changes.wiring).trans h.executor
  rcases ha.still with hstill | ⟨halive, rfl⟩
  · exact h.still ha hexec hstill
  rcases startCommit_cases env n halive with ⟨commit, block, updates, newSet, hc⟩ | hf
  · exact h.committed ha hexec halive hc
  · exact h.commitFailed ha hexec halive hf

end Chained

theorem chained_fresh (hexec : l.wiring.hasExecutor = true) : Chained l l.fresh where
  sound := sound_fresh l
  executor := hexec
  past := fun x hx => by cases hx
  consecutive := rfl
  height := fun _ => (add_zero l.height).symm
  first := le_rfl
  certified := fun x hx => by cases hx
  last := fun cs hcs => by
    cases List.mem_singleton.mp hcs
    exact ⟨fun _ => rfl, fun x hx => by cases hx⟩

theorem chained_run (hexec : l.wiring.hasExecutor = true) (env : Env) (events : List (Env × Event))
    :
    Chained l (l.run env events) :=
  Launch.run_invariant (chained_fresh hexec) fun _ _ _ _ hn hstep =>
    hstep.atoms.invariant hn fun _ _ hk ha => hk.atom ha

theorem allDescend_run (hexec : l.wiring.hasExecutor = true) (env : Env)
    (events : List (Env × Event)) :
    AllDescend l.height l.validatorSet (l.run env events) := by
  have hboth : AllDescend l.height l.validatorSet (l.run env events) ∧
      (l.run env events).cs.hasExecutor = true := by
    refine Launch.run_invariant
      (P := fun n => AllDescend l.height l.validatorSet n ∧ n.cs.hasExecutor = true)
      ⟨fun cs hcs => ?_, hexec⟩ fun _ _ _ _ hn hstep => ?_
    · cases List.mem_singleton.mp hcs
      exact .inl ⟨rfl, rfl⟩
    · exact hstep.atoms.invariant
        (P := fun n => AllDescend l.height l.validatorSet n ∧ n.cs.hasExecutor = true) hn
        fun _ _ hk ha => ⟨hk.1.atom hk.2 ha,
          (congrArg Wiring.hasExecutor ha.changes.wiring).trans hk.2⟩
  exact hboth.1

omit [Externals] in
theorem mem_states_of_calls (h : x ∈ n.calls) : x.1 ∈ n.states := by
  obtain ⟨y, hy, heq⟩ := List.mem_filterMap.mp h
  obtain ⟨call, -, rfl⟩ := Option.map_eq_some_iff.mp heq
  exact List.mem_cons_of_mem _ (List.mem_map_of_mem hy)

/-! ## What `CreateProposalBlock` is called with -/

/-- Every call of `CreateProposalBlock` is made with the height and the last commit of the
moment. -/
def AsksWell (n : Node) : Prop :=
  ∀ cs request, (cs, .createProposalBlock request) ∈ n.trace →
    request.height = cs.height ∧ request.lastCommit = cs.lastCommit

theorem AsksWell.atom (h : AsksWell n) (ha : Atom env input n m) : AsksWell m := by
  obtain ⟨s, l, hl, hnew⟩ := ha.entries
  intro cs request hmem
  rw [hl] at hmem
  rcases List.mem_append.mp hmem with hmem | hmem
  · cases hnew _ hmem with
    | neutral hneutral => exact hneutral
  · exact h cs request hmem

theorem asksWell_run (l : Launch) (env : Env) (events : List (Env × Event)) :
    AsksWell (l.run env events) :=
  Launch.run_invariant (fun cs request hmem => by cases hmem) fun _ _ _ _ hn hstep =>
    hstep.atoms.invariant hn fun _ _ hk ha => hk.atom ha

/-- The last commit that `CreateProposalBlock` gets is the one of the call at the height
before, or the one the node was started with. -/
def Follows (l : Launch) (calls : List (ConsensusState × Block × Commit))
    (request : ProposalRequest) : Prop :=
  request.height = l.height ∧ request.lastCommit = l.lastCommit ∨
    ∃ x ∈ calls, request.height = x.1.height + 1 ∧ request.lastCommit = some x.2.2

theorem follows_run (hexec : l.wiring.hasExecutor = true) (env : Env) (events : List (Env × Event))
    {request : ProposalRequest}
    (h : (cs, .createProposalBlock request) ∈ (l.run env events).trace) :
    Follows l (l.run env events).calls request := by
  have hstate : cs ∈ (l.run env events).states :=
    List.mem_cons_of_mem _ (List.mem_map_of_mem h)
  obtain ⟨hheight, hcommit⟩ := asksWell_run l env events cs request h
  have hlast := (chained_run hexec env events).last cs hstate
  rcases allDescend_run hexec env events cs hstate with
    ⟨heq, -⟩ | ⟨-, cs₁, block, commit, updates, hmem, hbefore, -⟩
  · exact .inl ⟨hheight.trans heq, hcommit.trans (hlast.first heq)⟩
  · have hcall : (cs₁, block, commit) ∈ (l.run env events).calls :=
      List.mem_filterMap.mpr ⟨_, hmem, rfl⟩
    have hnext : cs.height = cs₁.height + 1 := by omega
    exact .inr ⟨_, hcall, hheight.trans hnext, hcommit.trans (hlast.later _ hcall hnext)⟩

/-- **The committed chain.** In every run of a node with an executor, the calls of
`ApplyBlock` are for consecutive heights from the first one on. Each is made with a
certificate for its block and height under the validators in force, which follow from
the call before. In every state of the run the last commit is the certificate of the
call at the height before, and this is the commit that `CreateProposalBlock` gets. Heights
are `int64` in the code: this is about runs that stay below the overflow, and then every
height in them is one of these. -/
theorem committed_chain (l : Launch) (hexec : l.wiring.hasExecutor = true) (env : Env)
    (events : List (Env × Event)) (hlow : minInt64 ≤ l.height)
    (hhigh : (l.run env events).cs.height ≤ maxInt64) :
    Consecutive l (l.run env events).calls ∧
    (∀ x ∈ (l.run env events).calls, CertifiedCall x ∧
      Descends l.height l.validatorSet (l.run env events).trace x.1) ∧
    (∀ cs ∈ (l.run env events).states, LastOf l (l.run env events).calls cs ∧
      minInt64 ≤ cs.height ∧ cs.height ≤ maxInt64) ∧
    ∀ cs request, (cs, .createProposalBlock request) ∈ (l.run env events).trace →
      Follows l (l.run env events).calls request := by
  have hchain := chained_run hexec env events
  have hdescend := allDescend_run hexec env events
  refine ⟨hchain.consecutive, fun x hx => ⟨hchain.certified x hx, ?_⟩,
    fun cs hcs => ⟨hchain.last cs hcs, hlow.trans (hdescend cs hcs).height_le,
      (hchain.height_le hcs).trans hhigh⟩,
    fun cs request => follows_run hexec env events⟩
  exact hdescend x.1 (mem_states_of_calls hx)

end

section runs

attribute [local instance] transparent

/-- Validator 1 with nine tenths of the power, alone on the network. -/
def soloValidators : { vs : ValidatorSet // vs.Wf } :=
  Scenario.validatorSet [(1, 9), (2, 1)] Scenario.isOk_strong

/-- It commits a block at `Start` and the next one after its commit timeout. -/
def soloRun : Node := Scenario.run 1 soloValidators [.timeout ⟨2, 0, .commit⟩]

/-- What a node called `CreateProposalBlock` with. -/
def Action.request? : Action → Option ProposalRequest
  | .createProposalBlock request => some request
  | _ => none

theorem committed_chain_solo : soloRun.calls.reverse.map (fun x => x.1.height) = [1, 2] ∧
    Consecutive (Scenario.launch 1 soloValidators) soloRun.calls ∧
    (∀ x ∈ soloRun.calls, CertifiedCall x) ∧
    (∀ cs ∈ soloRun.states, LastOf (Scenario.launch 1 soloValidators) soloRun.calls cs) ∧
    (soloRun.trace.reverse.filterMap fun x => x.2.request?.map ProposalRequest.height) = [1, 2] ∧
    ∀ cs request, (cs, .createProposalBlock request) ∈ soloRun.trace →
      Follows (Scenario.launch 1 soloValidators) soloRun.calls request := by
  obtain ⟨hconsecutive, hcertified, hlast, hfollows⟩ :=
    committed_chain (Scenario.launch 1 soloValidators) rfl (Scenario.env 1)
      [(Scenario.env 1, .timeout ⟨2, 0, .commit⟩)] (by decide) (by decide +kernel)
  exact ⟨by decide +kernel, hconsecutive, fun x hx => (hcertified x hx).1,
    fun cs hcs => (hlast cs hcs).1, by decide +kernel, hfollows⟩

end runs

end Leaderberry
