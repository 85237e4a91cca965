import Leaderberry.Engine.Voting

/-!
# Locks are justified

The invariant behind locking: whenever a node is locked on a block, the prevotes
of the locked round have their 2/3+ majority on that block's hash, and the same
for the valid block. It holds after every run, whatever proposals, votes and
timeouts arrive.

The lock fields are written in several functions, so the proof goes down one more
level: `Change` lists the assignments to the consensus state, every micro-step is
a sequence of them (`Atom.changes`), and `Sound` is kept by each single
assignment (`Sound.change`).
-/

namespace Leaderberry

section

variable [Externals]

/-- One group of assignments to the consensus state. -/
inductive Change : ConsensusState → ConsensusState → Prop
  | enterRound {cs r} : cs.round ≤ r → Change cs (cs.enterRound r)
  | proposal {cs p b} : Change cs { cs with proposal := p, proposalBlock := b }
  | step {cs s} : Change cs { cs with step := s }
  | unlock {cs} : Change cs { cs with lockedRound := -1, lockedBlock := none }
  | lock {cs block} : cs.votes.majority .prevote cs.round = some (some (blockHash block)) →
      isHashEmpty (some (blockHash block)) = false →
      Change cs { cs with
        lockedRound := cs.round, lockedBlock := some block
        validRound := cs.round, validBlock := some block }
  | vote {cs now v} : Change cs { cs with votes := (cs.votes.addVote now v).2 }
  | raise {cs r} : cs.round ≤ r → Change cs { cs with round := r }
  | advance {cs commit updates newSet} :
      Node.nextValidatorSet cs.validatorSet updates = .ok newSet →
      Change cs (cs.nextHeight commit newSet)

variable {env : Env} {t : VoteType} {hash : Option Hash} {n m : Node}
  {input : Option Event} {cs cs' : ConsensusState} {re : Bool} {r : Int}

/-- Any number of assignments. -/
abbrev Changes : ConsensusState → ConsensusState → Prop := Relation.ReflTransGen Change

theorem castOwnVote_changes (halive : n.panicked = none) :
    Changes n.cs (n.castOwnVote env t hash).1.cs := by
  rcases castOwnVote_cases env t hash halive with heq | ⟨v, hcast, -⟩ | ⟨v, hfail, -⟩
  · rw [heq]
  · obtain ⟨now, -, hcs⟩ := hcast.added
    rw [hcs]
    exact .single .vote
  · rcases hfail.votes with hcs | ⟨now, -, hcs⟩
    · rw [hcs]
    · rw [hcs]
      exact .single .vote

theorem startPrevote_changes (n : Node) : Changes n.cs n.startPrevote.cs := by
  rcases n.startPrevote_cases with ⟨-, heq⟩ | ⟨-, heq⟩
  · rw [heq]
    exact .single .step
  · rw [heq]
    exact .head .step (.single .unlock)

theorem startPrecommit_changes (env : Env) (n : Node) :
    Changes n.cs (n.startPrecommit env).1.cs := by
  rcases startPrecommit_cases env n with heq | ⟨hash, -, -, heq⟩ | ⟨block, hmaj, hne, -, heq⟩
  · rw [heq]
    exact .single .step
  · rw [heq]
    exact .head .step (.single .unlock)
  · rw [heq, Node.writeState, Node.walWrite_cs]
    exact .head .step (.single (.lock hmaj hne))

theorem startCommit_changes (halive : n.panicked = none) :
    Changes n.cs (n.startCommit env).cs := by
  rcases startCommit_cases env n halive with ⟨commit, block, updates, newSet, hc⟩ | hf
  · rw [hc.cs]
    exact .head .step (.single (.advance hc.nextSet))
  · rw [hf.cs]
    exact .single .step

/-- Every atom is a sequence of assignments. -/
theorem Atom.changes (h : Atom env input n m) : Changes n.cs m.cs := by
  cases h with
  | emit => exact .refl
  | halt => exact .refl
  | startRound hr => exact .single (.enterRound hr)
  | takeProposal => exact .single (by rw [Node.takeProposal_cs]; exact .proposal)
  | startPrevote => exact startPrevote_changes n
  | startPrevoteWait => exact .single .step
  | startPrecommit => exact startPrecommit_changes _ n
  | startPrecommitWait => exact .single .step
  | castOwnVote halive => exact castOwnVote_changes halive
  | receiveVote => exact .single .vote
  | raiseRound => exact .single (by rw [Node.raiseRound_cs]; exact .raise (le_max_left _ _))
  | startCommit halive => exact startCommit_changes halive

/-! ## Wiring -/

/-- The configuration of a state. -/
def ConsensusState.wiring (cs : ConsensusState) : Wiring where
  config := cs.config
  privVal := cs.privVal
  hasWal := cs.hasWal
  hasExecutor := cs.hasExecutor
  onProposal := cs.onProposal
  onVote := cs.onVote

theorem Changes.wiring (h : Changes cs cs') :
    cs'.wiring = cs.wiring := by
  induction h with
  | refl => rfl
  | tail _ hlast ih =>
    rw [← ih]
    cases hlast <;> rfl

theorem Steps.atoms (h : Steps re env input n m) : Atoms env input n m :=
  h.invariant (P := fun k => Atoms env input n k) .refl fun _ _ hk hstep => hk.trans hstep.atoms

theorem Steps.wiring (h : Steps re env input n m) : m.cs.wiring = n.cs.wiring :=
  h.atoms.invariant (P := fun k => k.cs.wiring = n.cs.wiring) rfl
    fun _ _ hk ha => ha.changes.wiring.trans hk

theorem wiring_run (l : Launch) (env : Env) (events : List (Env × Event)) :
    (l.run env events).cs.wiring = l.wiring :=
  Launch.run_invariant (P := fun n => n.cs.wiring = l.wiring) rfl
    fun _ _ _ _ hn hstep => (Steps.wiring (.single hstep)).trans hn

theorem Changes.height_le (h : Changes cs cs') :
    cs.height ≤ cs'.height := by
  induction h with
  | refl => exact le_rfl
  | tail _ hlast ih =>
    refine ih.trans ?_
    cases hlast with
    | advance => exact (lt_add_one _).le
    | _ => exact le_rfl

theorem Steps.height_le (h : Steps re env input n m) : n.cs.height ≤ m.cs.height :=
  h.atoms.invariant (P := fun k => n.cs.height ≤ k.cs.height) le_rfl
    fun _ _ hk ha => hk.trans ha.changes.height_le

/-! ## The invariant -/

/-- A lock, or the absence of one, at round `r`: a locked block has the prevote
majority of its round, and its hash is not the empty one. -/
def Justified (votes : HeightVoteSet) (round r : Int) : Option Block → Prop
  | none => r = -1
  | some block => 0 ≤ r ∧ r ≤ round ∧
      votes.majority .prevote r = some (some (blockHash block)) ∧
      isHashEmpty (some (blockHash block)) = false

/-- The invariant of a consensus state after `Start`. -/
structure Sound (cs : ConsensusState) : Prop where
  votes : cs.votes.Inv
  chainID : cs.votes.chainID = cs.config.chainID
  height : cs.votes.height = cs.height
  validatorSet : cs.votes.validatorSet = cs.validatorSet
  round : 0 ≤ cs.round
  lock : Justified cs.votes cs.round cs.lockedRound cs.lockedBlock
  valid : Justified cs.votes cs.round cs.validRound cs.validBlock

theorem Justified.mono {votes votes' : HeightVoteSet} {round round' r : Int}
    {b : Option Block} (h : Justified votes round r b) (hround : round ≤ round')
    (hmaj : ∀ r hash, votes.majority .prevote r = some hash →
      votes'.majority .prevote r = some hash) : Justified votes' round' r b := by
  cases b with
  | none => exact h
  | some block => exact ⟨h.1, h.2.1.trans hround, hmaj r _ h.2.2.1, h.2.2.2⟩

theorem majority_addVote_mono {hvs : HeightVoteSet} (hinv : hvs.Inv) (now : Int) (v : Vote)
    (h : hvs.majority t r = some hash) :
    (hvs.addVote now v).2.majority t r = some hash := by
  by_cases hok : (hvs.addVote now v).1 = .ok true
  · exact (hinv.added_addVote hok).majority_mono t r hash h
  · rw [HeightVoteSet.majority_addVote_rejected hok]
    exact h

theorem voteOf_addVote_mono {hvs : HeightVoteSet} (hinv : hvs.Inv) (now : Int) (v : Vote) {i : Nat}
    {w : Vote} (h : hvs.voteOf t r i = some w) :
    (hvs.addVote now v).2.voteOf t r i = some w := by
  by_cases hok : (hvs.addVote now v).1 = .ok true
  · have hadded := hinv.added_addVote hok
    rw [hadded.voteOf_eq, if_neg]
    · exact h
    · rintro ⟨rfl, rfl, rfl⟩
      rw [hadded.fresh] at h
      cases h
  · rw [HeightVoteSet.voteOf_addVote_rejected hok]
    exact h

theorem wf_nextValidatorSet {vs newSet : ValidatorSet} {updates : List ValidatorUpdate}
    (h : vs.Wf) (hset : Node.nextValidatorSet vs updates = .ok newSet) : newSet.Wf := by
  unfold Node.nextValidatorSet at hset
  split at hset
  · unfold applyValidatorUpdates at hset
    dsimp only at hset
    split at hset
    · cases hset
    · split at hset
      · cases hset
      · rename_i newSet' hnew
        cases hset
        exact (wf_newValidatorSet hnew).withIncrementedPriority 1
  · cases hset
    exact h.withIncrementedPriority 1

omit [Externals] in
/-- The validator that a node votes as has the node's key. -/
theorem ownValidator_key (hwf : cs.validatorSet.Wf) {index : Nat} {val : NamedValidator}
    (h : cs.ownValidator = some (index, val)) :
    cs.validatorSet.getByIndex index = some val ∧ cs.privVal = some val.publicKey := by
  unfold ConsensusState.ownValidator at h
  obtain ⟨key, hkey, h⟩ := Option.bind_eq_some_iff.mp h
  obtain ⟨v, hfind, h⟩ := Option.bind_eq_some_iff.mp h
  obtain ⟨val', hget, h⟩ := Option.map_eq_some_iff.mp h
  cases h
  refine ⟨hget, ?_⟩
  -- the validator found by its key is the one at its own index
  have hmem := List.mem_of_find?_eq_some hfind
  obtain ⟨k, hk⟩ := List.mem_iff_getElem?.mp hmem
  have hindex := hwf.index_eq k v hk
  rw [hindex, hwf.getByIndex_eq, hk] at hget
  cases hget
  have hpub := List.find?_some hfind
  rw [hkey, ← beq_iff_eq.mp hpub]

/-- Every assignment keeps the invariant. -/
theorem Sound.change (h : Sound cs) (hc : Change cs cs') :
    Sound cs' := by
  cases hc with
  | @enterRound r hr =>
    refine { h with round := h.round.trans hr, lock := h.lock.mono hr fun _ _ hm => hm,
                    valid := ?_ }
    show Justified cs.votes r (if r = 0 then -1 else cs.validRound)
      (if r = 0 then none else cs.validBlock)
    split
    · rfl
    · exact h.valid.mono hr fun _ _ hm => hm
  | proposal => exact { h with }
  | step => exact { h with }
  | unlock => exact { h with lock := rfl }
  | lock hmaj hne =>
    exact { h with lock := ⟨h.round, le_rfl, hmaj, hne⟩, valid := ⟨h.round, le_rfl, hmaj, hne⟩ }
  | @vote now v =>
    have hsame := cs.votes.sameHeight_addVote now v
    exact { votes := h.votes.addVote now v
            chainID := hsame.chainID.trans h.chainID
            height := hsame.height.trans h.height
            validatorSet := hsame.validatorSet.trans h.validatorSet
            round := h.round
            lock := h.lock.mono le_rfl fun _ _ hm => majority_addVote_mono h.votes now v hm
            valid := h.valid.mono le_rfl fun _ _ hm => majority_addVote_mono h.votes now v hm }
  | raise hr =>
    exact { h with round := h.round.trans hr, lock := h.lock.mono hr fun _ _ hm => hm,
                   valid := h.valid.mono hr fun _ _ hm => hm }
  | advance hset =>
    have hwf := wf_nextValidatorSet (h.validatorSet ▸ h.votes.wf) hset
    exact { votes := cs.votes.inv_reset hwf
            chainID := h.chainID
            height := rfl
            validatorSet := rfl
            round := le_rfl
            lock := rfl
            valid := rfl }

/-- Within a height, rounds, stored votes and majorities only grow and the validators
stay. -/
structure Grows (cs cs' : ConsensusState) : Prop where
  config : cs'.config = cs.config
  privVal : cs'.privVal = cs.privVal
  height : cs.height ≤ cs'.height
  round : cs'.height = cs.height → cs.round ≤ cs'.round
  validatorSet : cs'.height = cs.height → cs'.validatorSet = cs.validatorSet
  majority : cs'.height = cs.height → ∀ t r hash, cs.votes.majority t r = some hash →
    cs'.votes.majority t r = some hash
  voteOf : cs'.height = cs.height → ∀ t r i v, cs.votes.voteOf t r i = some v →
    cs'.votes.voteOf t r i = some v

omit [Externals] in
theorem Grows.of_votes (hconfig : cs'.config = cs.config) (hkey : cs'.privVal = cs.privVal)
    (hheight : cs'.height = cs.height) (hround : cs.round ≤ cs'.round)
    (hset : cs'.validatorSet = cs.validatorSet) (hvotes : cs'.votes = cs.votes) :
    Grows cs cs' where
  config := hconfig
  privVal := hkey
  height := hheight.ge
  round := fun _ => hround
  validatorSet := fun _ => hset
  majority := fun _ _ _ _ hm => by rw [hvotes]; exact hm
  voteOf := fun _ _ _ _ _ hv => by rw [hvotes]; exact hv

omit [Externals] in
theorem Grows.trans {cs'' : ConsensusState} (h : Grows cs cs') (h' : Grows cs' cs'') :
    Grows cs cs'' := by
  have hmid : cs''.height = cs.height → cs'.height = cs.height ∧ cs''.height = cs'.height := by
    intro heq
    have h₁ := h.height
    have h₂ := h'.height
    omega
  exact { config := h'.config.trans h.config
          privVal := h'.privVal.trans h.privVal
          height := h.height.trans h'.height
          round := fun heq => (h.round (hmid heq).1).trans (h'.round (hmid heq).2)
          validatorSet := fun heq =>
            (h'.validatorSet (hmid heq).2).trans (h.validatorSet (hmid heq).1)
          majority := fun heq t r hash hm =>
            h'.majority (hmid heq).2 t r hash (h.majority (hmid heq).1 t r hash hm)
          voteOf := fun heq t r i v hv =>
            h'.voteOf (hmid heq).2 t r i v (h.voteOf (hmid heq).1 t r i v hv) }

theorem Change.grows (h : Sound cs) (hc : Change cs cs') :
    Grows cs cs' := by
  cases hc with
  | enterRound hr => exact .of_votes rfl rfl rfl hr rfl rfl
  | proposal => exact .of_votes rfl rfl rfl le_rfl rfl rfl
  | step => exact .of_votes rfl rfl rfl le_rfl rfl rfl
  | unlock => exact .of_votes rfl rfl rfl le_rfl rfl rfl
  | lock => exact .of_votes rfl rfl rfl le_rfl rfl rfl
  | raise hr => exact .of_votes rfl rfl rfl hr rfl rfl
  | vote =>
    exact { config := rfl, privVal := rfl, height := le_rfl, round := fun _ => le_rfl
            validatorSet := fun _ => rfl
            majority := fun _ _ _ _ hm => majority_addVote_mono h.votes _ _ hm
            voteOf := fun _ _ _ _ _ hv => voteOf_addVote_mono h.votes _ _ hv }
  | advance =>
    have hne : ∀ commit newSet, (cs.nextHeight commit newSet).height ≠ cs.height := by
      intro commit newSet heq
      have : cs.height + 1 = cs.height := heq
      omega
    exact { config := rfl
            privVal := rfl
            height := show cs.height ≤ cs.height + 1 by omega
            round := fun heq => absurd heq (hne _ _)
            validatorSet := fun heq => absurd heq (hne _ _)
            majority := fun heq => absurd heq (hne _ _)
            voteOf := fun heq => absurd heq (hne _ _) }

theorem Sound.changes (h : Sound cs) (hc : Changes cs cs') :
    Sound cs' := by
  induction hc with
  | refl => exact h
  | tail _ hlast ih => exact ih.change hlast

theorem Changes.grows (h : Sound cs) (hc : Changes cs cs') :
    Grows cs cs' := by
  induction hc with
  | refl => exact .of_votes rfl rfl rfl le_rfl rfl rfl
  | tail hfirst hlast ih => exact ih.trans (hlast.grows (h.changes hfirst))

theorem Sound.atom (h : Sound n.cs) (ha : Atom env input n m) : Sound m.cs :=
  h.changes ha.changes

theorem Sound.step (h : Sound n.cs) (hstep : MicroStep re env input n m) :
    Sound m.cs :=
  hstep.atoms.invariant (P := fun n => Sound n.cs) h fun _ _ hn ha => hn.atom ha

theorem sound_fresh (l : Launch) : Sound l.fresh.cs where
  votes := HeightVoteSet.inv_new l.wf
  chainID := rfl
  height := rfl
  validatorSet := rfl
  round := le_rfl
  lock := rfl
  valid := rfl

theorem sound_run (l : Launch) (env : Env) (events : List (Env × Event)) :
    Sound (l.run env events).cs :=
  Launch.run_invariant (P := fun n => Sound n.cs) (sound_fresh l)
    fun _ _ _ _ hn hstep => hn.step hstep

/-! ## Precommits are signed under the lock -/

/-- A node about to precommit a block has locked on it in this very round. -/
theorem VoteStart.locked {k : Node} (h : VoteStart env input n k t hash) (ht : t = .precommit)
    {x : Hash} (hx : hash = some x) :
    k.cs.lockedRound = k.cs.round ∧
      ∃ block, k.cs.lockedBlock = some block ∧ blockHash block = x := by
  cases h with
  | prevote => cases ht
  | prevoteReceived => cases ht
  | prevoteOwn => cases ht
  | precommit _ =>
    rcases startPrecommit_cases env n with heq | ⟨hash, -, -, heq⟩ | ⟨block, -, -, -, heq⟩
    · rw [heq] at hx
      cases hx
    · rw [heq] at hx
      cases hx
    · rw [heq] at hx ⊢
      cases hx
      rw [Node.writeState, Node.walWrite_cs]
      exact ⟨rfl, block, rfl, rfl⟩

/-- The signed precommits of a node were signed under a lock on their block. -/
def PrecommitsLocked (n : Node) : Prop :=
  ∀ cs vote, (cs, vote) ∈ n.signs → vote.type = .precommit → ∀ x, vote.blockHash = some x →
    vote.height = cs.height ∧ cs.lockedRound = vote.round ∧
      ∃ block, cs.lockedBlock = some block ∧ blockHash block = x

theorem PrecommitsLocked.signed {k : Node} {vote : Vote} (h : PrecommitsLocked n)
    (hstart : VoteStart env input n k t hash) (hown : OwnVote k.cs env t hash vote)
    (hsigns : m.signs = (k.cs, vote) :: n.signs) :
    PrecommitsLocked m := by
  intro cs v hmem htype x hx
  rw [hsigns] at hmem
  rcases List.mem_cons.mp hmem with heq | hold
  · obtain ⟨rfl, rfl⟩ := Prod.mk.inj heq
    have hlock := hstart.locked (hown.type.symm.trans htype) (hown.blockHash.symm.trans hx)
    exact ⟨hown.height, hlock.1.trans hown.round.symm, hlock.2⟩
  · exact h cs v hold htype x hx

theorem PrecommitsLocked.step (h : PrecommitsLocked n) (hstep : MicroStep re env input n m) :
    PrecommitsLocked m := by
  cases hstep.voting with
  | none hsame =>
    intro cs v hmem
    rw [hsame.signs] at hmem
    exact h cs v hmem
  | cast hstart _ hcast hsigns _ => exact h.signed hstart hcast.own hsigns
  | failed hstart _ hfail hsigns _ => exact h.signed hstart hfail.own hsigns

theorem precommitsLocked_run (l : Launch) (env : Env) (events : List (Env × Event)) :
    PrecommitsLocked (l.run env events) :=
  Launch.run_invariant (fun _ _ hmem => by cases hmem) fun _ _ _ _ hn hstep => hn.step hstep

theorem Justified.eq_none_iff {votes : HeightVoteSet} {round : Int} {b : Option Block}
    (h : Justified votes round r b) : b = none ↔ r = -1 := by
  cases b with
  | none => exact ⟨fun _ => h, fun _ => rfl⟩
  | some block =>
    have hr : 0 ≤ r := h.1
    constructor
    · intro hnone
      cases hnone
    · intro hneg
      omega

/-- **Lock justification.** After any run from `Start`: no lock means round -1 and
the other way round, a locked block has the prevote majority of the locked round
at the current height, the same for the valid block, and every non-nil precommit
was signed while locked on its block in its round. -/
theorem lock_justification (l : Launch) (env : Env) (events : List (Env × Event)) :
    let n := l.run env events
    (n.cs.lockedBlock = none ↔ n.cs.lockedRound = -1) ∧
    (n.cs.validBlock = none ↔ n.cs.validRound = -1) ∧
    n.cs.votes.height = n.cs.height ∧
    (∀ block, n.cs.lockedBlock = some block → 0 ≤ n.cs.lockedRound ∧
      n.cs.lockedRound ≤ n.cs.round ∧
      n.cs.votes.majority .prevote n.cs.lockedRound = some (some (blockHash block))) ∧
    (∀ block, n.cs.validBlock = some block → 0 ≤ n.cs.validRound ∧
      n.cs.validRound ≤ n.cs.round ∧
      n.cs.votes.majority .prevote n.cs.validRound = some (some (blockHash block))) ∧
    (∀ cs vote, (cs, .signVote vote) ∈ n.trace → vote.type = .precommit →
      ∀ x, vote.blockHash = some x → vote.height = cs.height ∧ cs.lockedRound = vote.round ∧
        ∃ block, cs.lockedBlock = some block ∧ blockHash block = x) := by
  intro n
  have hsound : Sound n.cs := sound_run l env events
  refine ⟨hsound.lock.eq_none_iff, hsound.valid.eq_none_iff, hsound.height, ?_, ?_, ?_⟩
  · intro block hblock
    have hlock := hsound.lock
    rw [hblock] at hlock
    exact ⟨hlock.1, hlock.2.1, hlock.2.2.1⟩
  · intro block hblock
    have hvalid := hsound.valid
    rw [hblock] at hvalid
    exact ⟨hvalid.1, hvalid.2.1, hvalid.2.2.1⟩
  · intro cs vote hmem
    exact precommitsLocked_run l env events cs vote (Node.mem_signs.mpr hmem)

end

end Leaderberry
