import Leaderberry.Engine.Unlock
import Leaderberry.Engine.Certificate

/-!
# What one node has seen

`View G n`: every vote that node `n` relied on has the property `G`. It relied on the
votes in its vote sets, on the votes attached to the proposals it accepted, and on the
precommits behind the blocks it applied. The property is abstract here. In a network
it says that the vote is not a forgery, and then a quorum of such votes (`Evidence`)
tells something about other nodes.

`CastAt` records under which circumstances a node casts a vote, in the state of that
moment. `Past` carries such records forward: what held in a state of the trace still
holds while the height lasts.
-/

namespace Leaderberry

section

variable [Externals] {env : Env} {input : Option Event} {n m k : Node} {cs : ConsensusState}
  {t : VoteType} {r h₀ : Int} {x : Hash} {hash : Option Hash} {commit : Commit} {vote v : Vote}
  {vs₀ : ValidatorSet}

/-! ## The past of a node -/

/-- Every state that the trace shows has grown into the current one. -/
def Past (n : Node) : Prop := ∀ x ∈ n.trace, Grows x.1 n.cs

theorem Past.atom (h : Past n) (hsound : Sound n.cs) (ha : Atom env input n m) : Past m := by
  have hgrows := ha.changes.grows hsound
  obtain ⟨s, l, hl, hnew⟩ := ha.entries
  intro x hx
  rw [hl] at hx
  rcases List.mem_append.mp hx with hx | hx
  · rcases (hnew x hx).eq_or with heq | heq
    · rw [heq]
      exact .of_votes rfl rfl rfl le_rfl rfl rfl
    · have hstep : Grows (n.setStep s).cs n.cs := .of_votes rfl rfl rfl le_rfl rfl rfl
      rw [heq]
      exact hstep.trans hgrows
  · exact (h x hx).trans hgrows

/-! ## Evidence -/

/-- A quorum of votes for `x`, each verified and with the property `G`. -/
def Evidence (G : Vote → Prop) (cs : ConsensusState) (t : VoteType) (r : Int) (x : Hash) :
    Prop :=
  ∃ (hwf : cs.validatorSet.Wf) (S : Finset Nat), hwf.electorate.IsQuorum S ∧ ∀ i ∈ S, ∃ v,
    G v ∧ v.blockHash = some x ∧
      Backs cs.config.chainID cs.validatorSet t cs.height r (blockHashKey (some x)) i v

variable {G : Vote → Prop}

theorem Evidence.mono {G' : Vote → Prop} (h : Evidence G cs t r x) (himp : ∀ v, G v → G' v) :
    Evidence G' cs t r x := by
  obtain ⟨hwf, S, hS, hvotes⟩ := h
  refine ⟨hwf, S, hS, fun i hi => ?_⟩
  obtain ⟨v, hv, hrest⟩ := hvotes i hi
  exact ⟨v, himp v hv, hrest⟩

theorem Evidence.of_eq {cs' : ConsensusState} (h : Evidence G cs t r x)
    (hconfig : cs.config = cs'.config) (hset : cs.validatorSet = cs'.validatorSet)
    (hheight : cs.height = cs'.height) :
    Evidence G cs' t r x := by
  unfold Evidence at h ⊢
  rw [hconfig, hheight] at h
  obtain ⟨hwf, S, hS, hvotes⟩ := h
  refine ⟨hset ▸ hwf, S, (hset ▸ hwf : cs'.validatorSet.Wf).isQuorum_of_eq hset hS, ?_⟩
  rw [← hset]
  exact hvotes

omit [Externals] in
/-- Votes with the key of a real hash are votes for that hash. -/
theorem blockHash_of_key (hne : isHashEmpty (some x) = false)
    (h : blockHashKey hash = blockHashKey (some x)) : hash = some x := by
  have hx : blockHashKey (some x) = some x.data := if_neg (by simp [hne])
  rw [hx] at h
  cases hash with
  | none => cases h
  | some y =>
    simp only [blockHashKey] at h
    split at h
    · cases h
    · cases x
      cases y
      simpa using h

/-- The node's own majority is evidence. -/
theorem Sound.evidence (h : Sound cs) (hstored : ∀ t r i v, cs.votes.voteOf t r i = some v → G v)
    (hmaj : cs.votes.majority t r = some (some x)) (hne : isHashEmpty (some x) = false) :
    Evidence G cs t r x := by
  have hwf : cs.validatorSet.Wf := h.validatorSet ▸ h.votes.wf
  obtain ⟨S, hS, hvotes⟩ := h.votes.majority_quorum hmaj
  refine ⟨hwf, S, hwf.isQuorum_of_eq h.validatorSet hS, fun i hi => ?_⟩
  obtain ⟨v, hv, hkey⟩ := hvotes i hi
  obtain ⟨htype, hheight, hround, hindex, val, hval, -, hsig⟩ := h.votes.voteOf_verified hv
  rw [h.validatorSet] at hval
  rw [h.chainID] at hsig
  exact ⟨v, hstored t r i v hv, blockHash_of_key hne hkey, hindex, htype,
    hheight.trans h.height, hround, hkey, val, hval, verifyVoteSignature_of_verify hsig⟩

/-- A valid proof of lock is evidence. -/
theorem Sound.evidence_pol (h : Sound cs) {p : Proposal} (hvalid : cs.polValid p = true)
    (hheight : p.height = cs.height) (hvotes : ∀ v ∈ p.polVotes, G v) :
    Evidence G cs .prevote p.polRound (blockHash p.block) := by
  have hwf : cs.validatorSet.Wf := h.validatorSet ▸ h.votes.wf
  have hok := polValid_iff.mp hvalid
  obtain ⟨-, hall, -⟩ := validatePOL_iff.mp hok
  refine ⟨hwf, _, pol_quorum hwf hok, fun i hi => ?_⟩
  obtain ⟨v, hv, rfl⟩ := List.mem_map.mp (List.mem_toFinset.mp hi)
  have hpol := hall v hv
  obtain ⟨val, hval, -, hsig⟩ := hpol.signed
  exact ⟨v, hvotes v hv, hpol.blockHash, rfl, hpol.type, hpol.height.trans hheight, hpol.round,
    congrArg blockHashKey hpol.blockHash, val, hval, hsig⟩

omit [Externals] in
/-- The certificate that `enterCommitLocked` finds is a precommit majority. -/
theorem majority_of_commitAt {votes : HeightVoteSet}
    (h : ConsensusState.commitAt votes r = some commit) :
    votes.majority .precommit r = some (some commit.blockHash) ∧
      isHashEmpty (some commit.blockHash) = false := by
  unfold ConsensusState.commitAt at h
  split at h
  · cases h
  rename_i precommits hset
  split at h
  · cases h
  rename_i hash hmaj
  split at h
  · cases h
  rename_i hne
  have hblock : hash = some commit.blockHash := by
    unfold VoteSet.makeCommit at h
    split at h
    · cases h
    split at h
    · cases h
    · cases h
    · rename_i x hx
      split at h
      · cases h
      · rw [hmaj] at hx
        cases hx
        cases h
        rfl
  subst hblock
  exact ⟨(HeightVoteSet.majority_of_voteSetAt hset).trans hmaj, by simpa using hne⟩

omit [Externals] in
theorem majority_of_findCommit {votes : HeightVoteSet} : ∀ {k : Nat},
    ConsensusState.findCommit votes k = some commit → ∃ r, 0 ≤ r ∧
      votes.majority .precommit r = some (some commit.blockHash) ∧
        isHashEmpty (some commit.blockHash) = false
  | 0, h => ⟨0, le_rfl, majority_of_commitAt h⟩
  | k + 1, h => by
    unfold ConsensusState.findCommit at h
    split at h
    · rename_i commit' hat
      cases h
      exact ⟨k + 1, by omega, majority_of_commitAt hat⟩
    · exact majority_of_findCommit h

/-! ## The view -/

/-- The votes that an event carries. -/
def Event.votes : Event → List Vote
  | .proposal p => p.polVotes
  | .vote v => [v]
  | .timeout _ => []

/-- Every vote that the node relied on has the property `G`. -/
structure View (G : Vote → Prop) (n : Node) : Prop where
  remembers : Remembers False n
  past : Past n
  stored : ∀ t r i v, n.cs.votes.voteOf t r i = some v → G v
  accepted : ∀ cs p, (cs, .acceptProposal p) ∈ n.trace → p.height = cs.height ∧
    ∀ v ∈ p.polVotes, G v
  applied : ∀ cs b c result, (cs, .applyBlock b c result) ∈ n.trace →
    ∃ r, Evidence G cs .precommit r (blockHash b)

theorem View.mono {G' : Vote → Prop} (h : View G n) (himp : ∀ v, G v → G' v) :
    View G' n where
  remembers := h.remembers
  past := h.past
  stored := fun t r i v hv => himp v (h.stored t r i v hv)
  accepted := fun cs p hmem =>
    ⟨(h.accepted cs p hmem).1, fun v hv => himp v ((h.accepted cs p hmem).2 v hv)⟩
  applied := fun cs b c result hmem => by
    obtain ⟨r, hr⟩ := h.applied cs b c result hmem
    exact ⟨r, hr.mono himp⟩

omit [Externals] in
theorem voteOf_empty {hvs : HeightVoteSet} (h₁ : hvs.prevotes = ∅) (h₂ : hvs.precommits = ∅)
    (t : VoteType) (r : Int) (i : Nat) : hvs.voteOf t r i = none := by
  rw [HeightVoteSet.voteOf, HeightVoteSet.voteSetAt_empty h₁ h₂]
  rfl

/-- The vote that `AddVote` may add is the only new one. -/
theorem voteOf_addVote {hvs : HeightVoteSet} (hinv : hvs.Inv) {now : Int} {i : Nat}
    (h : (hvs.addVote now vote).2.voteOf t r i = some v) :
    hvs.voteOf t r i = some v ∨ v = vote ∧ (hvs.addVote now vote).1 = .ok true := by
  by_cases hok : (hvs.addVote now vote).1 = .ok true
  · rw [(hinv.added_addVote hok).voteOf_eq] at h
    split at h
    · cases h
      exact .inr ⟨rfl, hok⟩
    · exact .inl h
  · rw [HeightVoteSet.voteOf_addVote_rejected hok] at h
    exact .inl h

theorem Cast.mem_trace (h : Cast n env t hash vote m) : (m.cs, .castVote vote) ∈ m.trace := by
  rw [h.trace]
  exact List.mem_cons_self ..

/-- A stored vote was there before, arrived, or is the node's own. -/
theorem Atom.stored (ha : Atom env input n m) (hsound : Sound n.cs) {i : Nat}
    (h : m.cs.votes.voteOf t r i = some v) :
    n.cs.votes.voteOf t r i = some v ∨ input = some (.vote v) ∨
      ∃ cs, (cs, .castVote v) ∈ m.trace := by
  cases ha with
  | emit => exact .inl h
  | halt => exact .inl h
  | startRound => exact .inl h
  | takeProposal =>
    rw [Node.takeProposal_cs] at h
    exact .inl h
  | startPrevote =>
    obtain ⟨_, _, hcs⟩ := startPrevote_frame n
    rw [hcs] at h
    exact .inl h
  | startPrevoteWait => exact .inl h
  | startPrecommit =>
    obtain ⟨_, _, _, _, hcs⟩ := startPrecommit_frame env n
    rw [hcs] at h
    exact .inl h
  | startPrecommitWait => exact .inl h
  | castOwnVote halive =>
    rcases castOwnVote_cases env _ _ halive with heq | ⟨vote, hcast, -⟩ | ⟨vote, hfail, -⟩
    · rw [heq] at h
      exact .inl h
    · obtain ⟨now, -, hcs⟩ := hcast.added
      rw [hcs] at h
      rcases voteOf_addVote hsound.votes h with hold | ⟨rfl, -⟩
      · exact .inl hold
      · exact .inr (.inr ⟨_, hcast.mem_trace⟩)
    · rcases hfail.votes with hcs | ⟨now, hne, hcs⟩
      · rw [hcs] at h
        exact .inl h
      · rw [hcs] at h
        rcases voteOf_addVote hsound.votes h with hold | ⟨-, hok⟩
        · exact .inl hold
        · exact absurd hok hne
  | receiveVote hinput =>
    rcases voteOf_addVote hsound.votes h with hold | ⟨rfl, -⟩
    · exact .inl hold
    · exact .inr (.inl hinput)
  | raiseRound =>
    rw [Node.raiseRound_cs] at h
    exact .inl h
  | startCommit halive =>
    rcases startCommit_cases env n halive with ⟨commit, block, updates, newSet, hc⟩ | hf
    · -- the new height starts without votes
      rw [hc.cs] at h
      rw [voteOf_empty (by rfl) (by rfl)] at h
      cases h
    · rw [hf.cs] at h
      exact .inl h

omit [Externals] in
/-- The votes attached to an own proposal are stored votes. -/
theorem mem_polVotesToAttach (h : v ∈ cs.polVotesToAttach) :
    ∃ i, cs.votes.voteOf .prevote cs.validRound i = some v := by
  unfold ConsensusState.polVotesToAttach at h
  split at h
  · split at h
    · rename_i prevotes hset
      obtain ⟨i, hi⟩ := VoteSet.mem_getVotes.mp h
      exact ⟨i, by rw [HeightVoteSet.voteOf, hset]; exact hi⟩
    · cases h
  · cases h

/-- An atom keeps the view, if what arrives and what the node casts has the property. -/
theorem View.atom (h : View G n) (ha : Atom env input n m) (hnil : NilUnlocks False m.trace)
    (hinput : ∀ event, input = some event → ∀ v ∈ event.votes, G v)
    (hcasts : ∀ cs v, (cs, .castVote v) ∈ m.trace → G v) : View G m := by
  have hsound := h.remembers.sound
  obtain ⟨s, l, hl, hnew⟩ := ha.entries
  refine { remembers := h.remembers.atom ha hnil, past := h.past.atom hsound ha,
           stored := fun t r i v hv => ?_, accepted := fun cs p hmem => ?_,
           applied := fun cs b c result hmem => ?_ }
  · rcases ha.stored hsound hv with hold | harrived | ⟨cs, hown⟩
    · exact h.stored t r i v hold
    · exact hinput _ harrived v (List.mem_singleton.mpr rfl)
    · exact hcasts cs v hown
  · rw [hl] at hmem
    rcases List.mem_append.mp hmem with hmem | hmem
    · cases hnew _ hmem with
      | neutral hneutral => exact hneutral.elim
      | @accept p own htakes heq =>
        refine ⟨?_, fun v hv => ?_⟩
        · rw [heq, Node.takeProposal_cs]
          exact htakes.height_round.1
        · cases own with
          | true =>
            rw [OwnProposal.polVotes htakes] at hv
            obtain ⟨i, hi⟩ := mem_polVotesToAttach hv
            exact h.stored _ _ i v hi
          | false => exact hinput _ htakes.1 v hv
    · exact h.accepted cs p hmem
  · rw [hl] at hmem
    rcases List.mem_append.mp hmem with hmem | hmem
    · cases hnew _ hmem with
      | neutral hneutral => exact hneutral.elim
      | apply hchoice =>
        obtain ⟨r, -, hmaj, hne⟩ := majority_of_findCommit hchoice.found
        refine ⟨r, ?_⟩
        rw [hchoice.hash]
        exact (hsound.evidence h.stored hmaj hne).of_eq rfl rfl rfl
    · exact h.applied cs b c result hmem

theorem View.atoms (h : View G n) (ha : Atoms env input n m) (hnil : NilUnlocks False m.trace)
    (hinput : ∀ event, input = some event → ∀ v ∈ event.votes, G v)
    (hcasts : ∀ cs v, (cs, .castVote v) ∈ m.trace → G v) : View G m := by
  induction ha with
  | refl => exact h
  | tail _ hlast ih =>
    have hsuf := hlast.trace_suffix
    exact (ih (hnil.of_suffix hsuf) fun cs v hmem => hcasts cs v (hsuf.subset hmem)).atom hlast
      hnil hinput hcasts

/-- A reason to give up a lock that is not a nil majority is evidence for another
block. -/
theorem View.released (h : View G n) {b : Hash} (hreleased : Released False n.cs n.trace b r) :
    ∃ q z, r < q ∧ z ≠ b ∧ Evidence G n.cs .prevote q z := by
  have hsound := h.remembers.sound
  obtain ⟨q, hq, -, ⟨hash, hmaj, hne, hnil⟩ | ⟨cs, p, hmem, hheight, rfl, -, -, hne, hvalid⟩⟩ :=
    hreleased
  · cases hash with
    | none => exact (hnil rfl).elim
    | some z =>
      have hfull : isHashEmpty (some z) = false := by
        cases hz : isHashEmpty (some z) with
        | true => exact (hnil hz).elim
        | false => rfl
      exact ⟨q, z, hq, fun heq => hne (congrArg some heq), hsound.evidence h.stored hmaj hfull⟩
  · obtain ⟨hcs, hvotes⟩ := h.accepted cs p hmem
    have hgrows := h.past _ hmem
    have hset := hgrows.validatorSet (hheight.symm.trans hcs)
    refine ⟨p.polRound, _, hq, hne, hsound.evidence_pol ?_ hheight hvotes⟩
    rw [polValid_of_eq hgrows.config hset]
    exact hvalid

theorem view_fresh (l : Launch) : View G l.fresh where
  remembers := remembers_fresh l
  past := fun x hx => by cases hx
  stored := fun t r i v hv => by
    rw [voteOf_empty (by rfl) (by rfl)] at hv
    cases hv
  accepted := fun cs p hmem => by cases hmem
  applied := fun cs b c result hmem => by cases hmem

/-! ## Cast votes -/

/-- The state in which a node has just cast a vote. -/
structure CastAt (cs : ConsensusState) (v : Vote) : Prop where
  type : v.type = .prevote ∨ v.type = .precommit
  height : v.height = cs.height
  round : v.round = cs.round
  voter : ∃ val, cs.ownValidator = some (v.validatorIndex, val)
  stored : cs.votes.voteOf v.type v.round v.validatorIndex = some v
  locked : v.type = .precommit → ∀ x, v.blockHash = some x → cs.lockedRound = cs.round ∧
    ∃ block, cs.lockedBlock = some block ∧ blockHash block = x

theorem VoteStart.type (h : VoteStart env input n k t hash) :
    t = .prevote ∨ t = .precommit := by
  cases h with
  | precommit => exact .inr rfl
  | _ => exact .inl rfl

/-- Nothing but the step and the lock changes before a vote. -/
theorem VoteStart.frame (h : VoteStart env input n k t hash) :
    k.cs.height = n.cs.height ∧ k.cs.validatorSet = n.cs.validatorSet := by
  cases h with
  | prevote =>
    obtain ⟨_, _, hcs⟩ := startPrevote_frame n
    rw [hcs]
    exact ⟨rfl, rfl⟩
  | @prevoteReceived p =>
    obtain ⟨_, _, hcs⟩ := startPrevote_frame (n.takeProposal p false)
    rw [hcs, Node.takeProposal_cs]
    exact ⟨rfl, rfl⟩
  | @prevoteOwn p =>
    obtain ⟨_, _, hcs⟩ := startPrevote_frame (n.takeProposal p true)
    rw [hcs, Node.takeProposal_cs]
    exact ⟨rfl, rfl⟩
  | precommit =>
    obtain ⟨_, _, _, _, hcs⟩ := startPrecommit_frame env n
    rw [hcs]
    exact ⟨rfl, rfl⟩

theorem VoteStart.castAt (hstart : VoteStart env input n k t hash) (hsound : Sound k.cs)
    (hcast : Cast k env t hash vote m) : CastAt m.cs vote := by
  obtain ⟨now, hok, hcs⟩ := hcast.added
  have hown := hcast.own
  have hadded := hsound.votes.added_addVote hok
  obtain ⟨val, hval, -⟩ := hown.validator
  rw [hcs]
  refine { type := hown.type ▸ hstart.type, height := hown.height, round := hown.round,
           voter := ⟨val, hval⟩, stored := ?_, locked := fun htype x hx => ?_ }
  · show (k.cs.votes.addVote now vote).2.voteOf _ _ _ = _
    rw [hadded.voteOf_eq, if_pos ⟨rfl, rfl, rfl⟩]
  · exact hstart.locked (hown.type.symm.trans htype) (hown.blockHash.symm.trans hx)

/-- Every cast vote was cast as `CastAt` says. -/
def CastsWell (n : Node) : Prop := ∀ cs v, (cs, v) ∈ n.casts → CastAt cs v

theorem CastsWell.step {re : Bool} (h : CastsWell n) (hsound : Sound n.cs)
    (hstep : MicroStep re env input n m) :
    CastsWell m := by
  intro cs v hmem
  cases hstep.voting with
  | none hsame => exact h cs v (hsame.casts ▸ hmem)
  | failed _ _ _ _ hcasts => exact h cs v (hcasts ▸ hmem)
  | cast hstart _ hcast _ hcasts =>
    rw [hcasts] at hmem
    rcases List.mem_cons.mp hmem with heq | hold
    · cases heq
      refine hstart.castAt ?_ hcast
      exact hstart.atoms.invariant (P := fun n => Sound n.cs) hsound fun _ _ hn ha => hn.atom ha
    · exact h cs v hold

/-! ## Where a validator set comes from -/

/-- The states of a node: those its trace shows and the current one. -/
def Node.states (n : Node) : List ConsensusState := n.cs :: n.trace.map Prod.fst

/-- The validator set of a state is the initial one, or the one that the block applied
at the previous height led to. -/
def Descends (height : Int) (validatorSet : ValidatorSet)
    (trace : List (ConsensusState × Action)) (cs : ConsensusState) : Prop :=
  cs.height = height ∧ cs.validatorSet = validatorSet ∨
    height < cs.height ∧ ∃ cs' b c updates, (cs', .applyBlock b c (some updates)) ∈ trace ∧
      cs'.height + 1 = cs.height ∧
      Node.nextValidatorSet cs'.validatorSet updates = .ok cs.validatorSet

theorem Descends.height_le {trace : List (ConsensusState × Action)} (h : Descends h₀ vs₀ trace cs) :
    h₀ ≤ cs.height := by
  rcases h with ⟨heq, -⟩ | ⟨hlt, -⟩
  · exact heq.ge
  · exact hlt.le

theorem Descends.of_eq {trace trace' : List (ConsensusState × Action)} {cs' : ConsensusState}
    (h : Descends h₀ vs₀ trace cs) (hsuf : trace <:+ trace') (hheight : cs'.height = cs.height)
    (hset : cs'.validatorSet = cs.validatorSet) : Descends h₀ vs₀ trace' cs' := by
  rcases h with ⟨hh, hs⟩ | ⟨hlt, cs₁, b, c, updates, hmem, hprev, hnext⟩
  · exact .inl ⟨hheight.trans hh, hset.trans hs⟩
  · exact .inr ⟨hheight ▸ hlt, cs₁, b, c, updates, hsuf.subset hmem, hheight ▸ hprev,
      hset ▸ hnext⟩

theorem Committed.mem_trace {block : Block} {updates : List ValidatorUpdate} {newSet : ValidatorSet}
    (hc : Committed n env commit block updates newSet m) (hexec : n.cs.hasExecutor = true) :
    ((n.setStep .commit).cs, .applyBlock block commit (some updates)) ∈ m.trace := by
  have hsuf : (applyEntry (n.setStep .commit).cs block commit updates ++ n.trace) <:+ m.trace := by
    rw [hc.eq]
    unfold Node.advanceHeight
    dsimp only
    split
    · exact List.suffix_append _ _
    · exact (List.suffix_append _ _).trans (List.suffix_cons _ _)
  refine hsuf.subset (List.mem_append_left _ ?_)
  unfold applyEntry
  rw [if_pos (by exact hexec)]
  exact List.mem_singleton.mpr rfl

/-- An atom stays at the height and keeps the validators, or it commits and goes on to
the next height, with the updates of `ApplyBlock` if there is an executor. -/
theorem Atom.commits (ha : Atom env input n m) :
    (m.cs.height = n.cs.height ∧ m.cs.validatorSet = n.cs.validatorSet) ∨
      ∃ b c updates,
        (if n.cs.hasExecutor then
          ((n.setStep .commit).cs, .applyBlock b c (some updates)) ∈ m.trace
        else updates = []) ∧
        m.cs.height = n.cs.height + 1 ∧
        Node.nextValidatorSet n.cs.validatorSet updates = .ok m.cs.validatorSet := by
  cases ha with
  | startCommit halive =>
    rcases startCommit_cases env n halive with ⟨commit, block, updates, newSet, hc⟩ | hf
    · refine .inr ⟨block, commit, updates, ?_, ?_, ?_⟩
      · by_cases hexec : n.cs.hasExecutor = true
        · rw [if_pos hexec]
          exact hc.mem_trace hexec
        · rw [if_neg hexec]
          simpa only [if_neg hexec] using hc.executed
      · rw [hc.cs]
        rfl
      · rw [hc.cs]
        exact hc.nextSet
    · rw [hf.cs]
      exact .inl ⟨rfl, rfl⟩
  | takeProposal =>
    rw [Node.takeProposal_cs]
    exact .inl ⟨rfl, rfl⟩
  | startPrevote =>
    obtain ⟨_, _, hcs⟩ := startPrevote_frame n
    rw [hcs]
    exact .inl ⟨rfl, rfl⟩
  | startPrecommit =>
    obtain ⟨_, _, _, _, hcs⟩ := startPrecommit_frame env n
    rw [hcs]
    exact .inl ⟨rfl, rfl⟩
  | castOwnVote halive =>
    obtain ⟨votes, hcs⟩ := castOwnVote_frame env _ _ halive
    rw [hcs]
    exact .inl ⟨rfl, rfl⟩
  | raiseRound =>
    rw [Node.raiseRound_cs]
    exact .inl ⟨rfl, rfl⟩
  | _ => exact .inl ⟨rfl, rfl⟩

/-- An atom of a node with an executor stays at the height and keeps the validators,
or it applies a block and goes on to the next height. -/
theorem Atom.advance (ha : Atom env input n m) (hexec : n.cs.hasExecutor = true) :
    (m.cs.height = n.cs.height ∧ m.cs.validatorSet = n.cs.validatorSet) ∨
      ∃ cs b c updates, (cs, .applyBlock b c (some updates)) ∈ m.trace ∧
        cs.height = n.cs.height ∧ cs.validatorSet = n.cs.validatorSet ∧
        m.cs.height = n.cs.height + 1 ∧
        Node.nextValidatorSet n.cs.validatorSet updates = .ok m.cs.validatorSet := by
  rcases ha.commits with hsame | ⟨b, c, updates, happlied, hheight, hnext⟩
  · exact .inl hsame
  · rw [if_pos hexec] at happlied
    exact .inr ⟨_, b, c, updates, happlied, rfl, rfl, hheight, hnext⟩

/-- Every state of the node has its validators from the initial set or an applied
block. -/
def AllDescend (height : Int) (validatorSet : ValidatorSet) (n : Node) : Prop :=
  ∀ cs ∈ n.states, Descends height validatorSet n.trace cs

theorem AllDescend.atom (h : AllDescend h₀ vs₀ n) (hexec : n.cs.hasExecutor = true)
    (ha : Atom env input n m) : AllDescend h₀ vs₀ m := by
  have hsuf := ha.trace_suffix
  have hn := h n.cs (List.mem_cons_self ..)
  have hm : Descends h₀ vs₀ m.trace m.cs := by
    rcases ha.advance hexec with ⟨hh, hs⟩ | ⟨cs, b, c, updates, hmem, hh, hs, hnext, hset⟩
    · exact hn.of_eq hsuf hh hs
    · have hle : h₀ ≤ n.cs.height := by
        rcases hn with ⟨heq, -⟩ | ⟨hlt, -⟩
        · exact heq.ge
        · exact hlt.le
      exact .inr ⟨by omega, cs, b, c, updates, hmem, by omega, hs ▸ hset⟩
  obtain ⟨s, l, hl, hnew⟩ := ha.entries
  intro cs hcs
  rcases List.mem_cons.mp hcs with rfl | hcs
  · exact hm
  · obtain ⟨x, hx, rfl⟩ := List.mem_map.mp hcs
    rw [hl] at hx
    rcases List.mem_append.mp hx with hx | hx
    · rcases (hnew x hx).eq_or with heq | heq
      · rw [heq]
        exact hm
      · rw [heq]
        exact hn.of_eq hsuf rfl rfl
    · exact (h x.1 (List.mem_cons_of_mem _ (List.mem_map_of_mem hx))).of_eq hsuf rfl rfl

/-- No validator set that was in force is forgotten. -/
theorem Atom.states (ha : Atom env input n m) (hexec : n.cs.hasExecutor = true)
    (hcs : cs ∈ n.states) :
    ∃ cs' ∈ m.states, cs'.height = cs.height ∧ cs'.validatorSet = cs.validatorSet := by
  rcases List.mem_cons.mp hcs with rfl | hcs
  · rcases ha.advance hexec with ⟨hh, hs⟩ | ⟨cs', b, c, updates, hmem, hh, hs, -⟩
    · exact ⟨m.cs, List.mem_cons_self .., hh, hs⟩
    · exact ⟨cs', List.mem_cons_of_mem _ (List.mem_map_of_mem hmem), hh, hs⟩
  · obtain ⟨x, hx, rfl⟩ := List.mem_map.mp hcs
    exact ⟨x.1, List.mem_cons_of_mem _ (List.mem_map_of_mem (ha.trace_suffix.subset hx)),
      rfl, rfl⟩

theorem Atoms.states (ha : Atoms env input n m) (hexec : n.cs.hasExecutor = true)
    (hcs : cs ∈ n.states) :
    ∃ cs' ∈ m.states, cs'.height = cs.height ∧ cs'.validatorSet = cs.validatorSet := by
  have hboth := ha.invariant (P := fun k => k.cs.hasExecutor = true ∧
    ∃ cs' ∈ k.states, cs'.height = cs.height ∧ cs'.validatorSet = cs.validatorSet)
    ⟨hexec, cs, hcs, rfl, rfl⟩ fun k k' hk hatom => by
      obtain ⟨hexec, cs', hcs', hh, hs⟩ := hk
      obtain ⟨cs'', hcs'', hh', hs'⟩ := hatom.states hexec hcs'
      have hwiring := congrArg Wiring.hasExecutor hatom.changes.wiring
      exact ⟨hwiring.trans hexec, cs'', hcs'', hh'.trans hh, hs'.trans hs⟩
  exact hboth.2

end

end Leaderberry
