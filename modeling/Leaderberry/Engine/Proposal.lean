import Leaderberry.Engine.Lock
import Leaderberry.Engine.Pol
import Leaderberry.Engine.Scenario

/-!
# Own proposals

Whether a correct node accepts what a correct proposer broadcasts. The proposer
attaches every prevote it holds of its valid round; `validatePOL` wants votes for the
proposed block only. So the proof of lock is accepted exactly if no prevote for nil
or another block is among them (`OwnProposal.pol_iff`), and with it the proposal
(`own_proposal_accepted_iff`).
-/

namespace Leaderberry

section

variable [Externals] {p : Proposal} {env : Env}

/-- All stored prevotes of the valid round are for the valid block. -/
def PureValidRound (cs : ConsensusState) : Prop :=
  ∀ i v, cs.votes.voteOf .prevote cs.validRound i = some v →
    v.blockHash = cs.validBlock.map blockHash

/-- A proof of lock made of all votes of a prevote set with a majority is valid
exactly if they are all for the proposed block. -/
theorem validatePOL_getVotes {prevotes : VoteSet} (hinv : prevotes.Inv) {hash : Option Hash}
    (hmaj : prevotes.twoThirdsMajority = some hash) (htype : prevotes.voteType = .prevote)
    (hheight : prevotes.height = p.height) (hround : prevotes.round = p.polRound)
    (hvotes : p.polVotes = prevotes.getVotes) :
    validatePOL prevotes.chainID prevotes.validatorSet p = .ok () ↔
      ∀ v ∈ prevotes.getVotes, v.blockHash = some (blockHash p.block) := by
  rw [validatePOL_iff, hvotes]
  constructor
  · rintro ⟨-, hall, -⟩ v hv
    exact (hall v hv).blockHash
  · intro hall
    have henough := hinv.twoThirds_le_sum hmaj
    rw [← hinv.getVotes_power] at henough
    refine ⟨fun hnil => ?_, fun v hv => ?_, hinv.getVotes_nodup, henough⟩
    · -- no votes have no power, but a majority has some
      rw [hnil] at henough
      have htotal := hinv.wf.totalPower_pos
      have hpos := (ValidatorSet.twoThirdsMajority_le_iff htotal 0).mp henough
      omega
    · obtain ⟨i, hi⟩ := VoteSet.mem_getVotes.mp hv
      obtain ⟨rfl, val, hval⟩ := hinv.verified i v hi
      exact ⟨hval.type.trans htype, hval.height.trans hheight, hval.round.trans hround, hall v hv,
        val, hval.found, hval.name, verifyVoteSignature_of_verify hval.signature⟩

/-- The proof of lock of an own proposal is valid exactly if the prevotes of the
valid round are all for the valid block. -/
theorem OwnProposal.pol_iff {cs : ConsensusState} (h : OwnProposal cs env p) (hsound : Sound cs)
    (hvalid : 0 ≤ cs.validRound) :
    validatePOL cs.config.chainID cs.validatorSet p = .ok () ↔ PureValidRound cs := by
  obtain ⟨block, hblock⟩ : ∃ block, cs.validBlock = some block := by
    cases hb : cs.validBlock with
    | some block => exact ⟨block, rfl⟩
    | none =>
      have hround := hsound.valid.eq_none_iff.mp hb
      omega
  have hmaj := hsound.valid
  rw [hblock] at hmaj
  obtain ⟨-, -, hmaj, -⟩ := hmaj
  obtain ⟨prevotes, hset, hmaj⟩ := Option.bind_eq_some_iff.mp hmaj
  have howns := hsound.votes.owns _ _ _ hset
  have hvotes : p.polVotes = prevotes.getVotes := by
    rw [h.polVotes, ConsensusState.polVotesToAttach, if_pos hvalid, hset]
  have hpropose : p.block = block := by
    obtain ⟨proposer, -, -, -, hpropose⟩ := h.proposer
    rw [ConsensusState.blockToPropose, hblock] at hpropose
    exact (Option.some_inj.mp hpropose).symm
  have hpol := validatePOL_getVotes (hsound.votes.inv _ _ _ hset) hmaj howns.voteType
    (howns.height.trans (hsound.height.trans h.height.symm))
    (howns.round.trans h.polRound.symm) hvotes
  rw [howns.chainID, hsound.chainID, howns.validatorSet, hsound.validatorSet] at hpol
  rw [hpol]
  unfold PureValidRound HeightVoteSet.voteOf
  rw [hset, hblock, hpropose]
  constructor
  · intro hall i v hv
    exact hall v (VoteSet.mem_getVotes.mpr ⟨i, hv⟩)
  · intro hall v hv
    obtain ⟨i, hi⟩ := VoteSet.mem_getVotes.mp hv
    exact hall i v hi

/-! ## What a node broadcasts -/

/-- Every broadcast proposal was made by the node itself, in a sound state and under
one of the given environments. -/
def BroadcastsOwn (w : Wiring) (envs : List Env) (n : Node) : Prop :=
  ∀ cs p, (cs, .broadcastProposal p) ∈ n.trace →
    Sound cs ∧ cs.wiring = w ∧ ∃ env ∈ envs, OwnProposal cs env p

/-- What holds along a run with broadcasts. -/
structure Broadcasting (w : Wiring) (envs : List Env) (n : Node) : Prop where
  sound : Sound n.cs
  wiring : n.cs.wiring = w
  own : BroadcastsOwn w envs n

theorem Broadcasting.atom {w : Wiring} {envs : List Env} {input : Option Event} {n m : Node}
    (h : Broadcasting w envs n) (henv : env ∈ envs) (ha : Atom env input n m) :
    Broadcasting w envs m where
  sound := h.sound.atom ha
  wiring := ha.changes.wiring.trans h.wiring
  own := by
    obtain ⟨s, l, hl, hnew⟩ := ha.entries
    intro cs p hmem
    rw [hl] at hmem
    rcases List.mem_append.mp hmem with hmem | hmem
    · cases hnew _ hmem with
      | neutral hneutral => cases hneutral
      | broadcast hown heq =>
        refine ⟨h.sound.atom ha, ha.changes.wiring.trans h.wiring, env, henv, ?_⟩
        -- the proposal fields are not read by the checks on an own proposal
        rw [heq, Node.takeProposal_cs]
        exact ⟨hown.step, hown.proposer, hown.height, hown.round, hown.polRound, hown.polVotes,
          hown.signature⟩
    · exact h.own cs p hmem

theorem broadcasting_run (l : Launch) (env : Env) (events : List (Env × Event)) :
    Broadcasting l.wiring (env :: events.map Prod.fst) (l.run env events) := by
  refine Launch.run_invariant ⟨sound_fresh l, rfl, fun cs p hmem => by cases hmem⟩ ?_
  intro t ht n m hn hstep
  refine hstep.atoms.invariant hn fun n m hn ha => hn.atom ?_ ha
  rcases List.mem_cons.mp ht with rfl | ht
  · exact List.mem_cons_self ..
  · obtain ⟨e, he, rfl⟩ := List.mem_map.mp ht
    exact List.mem_cons_of_mem _ (List.mem_map_of_mem he)

/-! ## Acceptance -/

/-- What follows after a proposal was taken keeps the trace of it. -/
theorem taken_trace (env : Env) (p : Proposal) {k : Node} (halive : k.panicked = none)
    (h r : Int) : ∃ l, (enterPrevoteLocked (sign env) h r (k.takeProposal p false)).trace =
      l ++ ((k.takeProposal p false).cs, .acceptProposal p) :: k.trace := by
  have hsign : SignSteps true env none (sign env) := signSteps env.depth
  have hsteps := enterPrevoteLocked_steps hsign (n := k.takeProposal p false) (by simp [halive]) h r
  obtain ⟨l, hl⟩ := Steps.trace_suffix hsteps
  exact ⟨l, by rw [← hl, Node.takeProposal_trace]; rfl⟩

/-- Handling a proposal makes it the node's proposal exactly if the checks pass and
the WAL takes it. -/
theorem handle_proposal_iff {m : Node} (halive : m.panicked = none) :
    (∃ new cs', (handle env (.proposal p) m).trace = new ++ m.trace ∧
      (cs', .acceptProposal p) ∈ new ∧ cs'.proposal = some p) ↔
    m.cs.acceptsProposal env p = true ∧
      (m.cs.hasWal = true → env.walWrite (.ofProposal p) = true) := by
  have nothing : ∀ {k : Node}, k.trace = m.trace → ¬ ∃ new cs', k.trace = new ++ m.trace ∧
      (cs', Action.acceptProposal p) ∈ new ∧ cs'.proposal = some p := by
    rintro k hk ⟨new, cs', htrace, hmem, -⟩
    rw [hk, List.self_eq_append_left] at htrace
    rw [htrace] at hmem
    cases hmem
  rw [handle, Node.andThen_alive halive]
  dsimp only
  unfold handleProposal
  by_cases hacc : m.cs.acceptsProposal env p = true
  swap
  · rw [if_neg hacc]
    exact iff_of_false (nothing rfl) fun h => hacc h.1
  rw [if_pos hacc]
  have hsome : ((m.takeProposal p false).cs).proposal = some p := by rw [Node.takeProposal_cs]
  unfold Node.walWrite
  cases hwal : m.cs.hasWal with
  | false =>
    refine iff_of_true ?_ ⟨hacc, by simp⟩
    simp only [Bool.not_false, if_true, Node.andThen_alive halive]
    obtain ⟨l, hl⟩ := taken_trace env p halive (m.takeProposal p false).cs.height
      (m.takeProposal p false).cs.round
    exact ⟨l ++ [_], _, by rw [hl, List.append_cons], by simp, hsome⟩
  | true =>
    simp only [Bool.not_true, Bool.false_eq_true, if_false]
    cases hwrite : env.walWrite (.ofProposal p) with
    | false =>
      rw [if_neg (by simp), Node.andThen_panicked rfl]
      exact iff_of_false (nothing rfl) (by simp)
    | true =>
      refine iff_of_true ?_ ⟨hacc, by simp⟩
      rw [if_pos rfl, Node.andThen_alive (by simpa using halive)]
      generalize hk : m.emit (.walWrite (.ofProposal p) true) = k
      have hkalive : k.panicked = none := by rw [← hk]; exact halive
      obtain ⟨l, hl⟩ := taken_trace env p hkalive (k.takeProposal p false).cs.height
        (k.takeProposal p false).cs.round
      refine ⟨l ++ [((k.takeProposal p false).cs, .acceptProposal p),
        (m.cs, .walWrite (.ofProposal p) true)], (k.takeProposal p false).cs, ?_, by simp, ?_⟩
      · rw [hl, ← hk, Node.emit_trace, List.append_assoc]
        rfl
      · rw [Node.takeProposal_cs]

/-- **Honest proposals.** A node at the height and round of a proposal that a correct
proposer broadcast, with the same validators and chain ID, no proposal yet and a
willing executor, accepts it exactly if the proposer had no valid round or only
prevotes for its valid block there (and the own WAL works). -/
theorem own_proposal_accepted_iff (l : Launch) (env : Env) (events : List (Env × Event))
    (key : PublicKey) (hkey : l.wiring.privVal = some key)
    (hsigner : ∀ e ∈ env :: events.map Prod.fst, ∀ p signature,
      e.signProposal p = some signature →
      verifySignature key (proposalSignBytes l.wiring.config.chainID p) signature = true)
    (cs : ConsensusState) (p : Proposal)
    (hbroadcast : (cs, .broadcastProposal p) ∈ (l.run env events).trace)
    (env' : Env) (m : Node) (halive : m.panicked = none) (hheight : m.cs.height = cs.height)
    (hround : m.cs.round = cs.round) (hset : m.cs.validatorSet = cs.validatorSet)
    (hchain : m.cs.config.chainID = l.wiring.config.chainID) (hnone : m.cs.proposal = none)
    (hexec : m.cs.hasExecutor = true → env'.validateBlock p.block = true) :
    (∃ new cs', (handle env' (.proposal p) m).trace = new ++ m.trace ∧
      (cs', .acceptProposal p) ∈ new ∧ cs'.proposal = some p) ↔
    (cs.validRound < 0 ∨ PureValidRound cs) ∧
      (m.cs.hasWal = true → env'.walWrite (.ofProposal p) = true) := by
  obtain ⟨hsound, hwiring, e, he, hown⟩ := (broadcasting_run l env events).own cs p hbroadcast
  have hconfig : cs.config = l.wiring.config := congrArg Wiring.config hwiring
  have hpriv : cs.privVal = l.wiring.privVal := congrArg Wiring.privVal hwiring
  obtain ⟨proposer, hproposer, hmine, hname, -⟩ := hown.proposer
  obtain rfl : key = proposer.publicKey := by
    rw [hpriv, hkey] at hmine
    exact Option.some_inj.mp hmine
  have hpol : (0 ≤ p.polRound → m.cs.polValid p = true) ↔
      cs.validRound < 0 ∨ PureValidRound cs := by
    rw [hown.polRound, polValid_iff, hchain, hset, ← hconfig]
    by_cases hneg : cs.validRound < 0
    · exact iff_of_true (fun hnn => by omega) (.inl hneg)
    · rw [hown.pol_iff hsound (not_lt.mp hneg)]
      constructor
      · exact fun h => .inr (h (not_lt.mp hneg))
      · exact fun h _ => h.resolve_left hneg
  rw [handle_proposal_iff halive, acceptsProposal_iff, hpol]
  have hproposer' : ∃ q, m.cs.validatorSet.getProposerForRound p.round = some q ∧
      p.proposer = q.name ∧ verifySignature q.publicKey
        (proposalSignBytes m.cs.config.chainID p) p.signature = true := by
    refine ⟨proposer, by rw [hset, hown.round]; exact hproposer, hname, ?_⟩
    rw [hchain]
    exact hsigner e he { p with signature := ⟨[]⟩ } _ hown.signature
  constructor
  · rintro ⟨⟨-, -, -, -, hpure, -⟩, hwal⟩
    exact ⟨hpure, hwal⟩
  · rintro ⟨hpure, hwal⟩
    exact ⟨⟨hown.height.trans hheight.symm, hown.round.trans hround.symm, hnone, hproposer', hpure,
      hexec⟩, hwal⟩

end

section mixed

attribute [local instance] transparent

/-- Three validators; validator 1 proposes at round 3. -/
def mixedValidators : { vs : ValidatorSet // vs.Wf } :=
  Scenario.validatorSet [(1, 1), (2, 5), (3, 2)] Scenario.isOk_three

/-- Validator 1 locks block 10 at round 0, where validator 3 prevoted `third`, and
moves to round 3. -/
def mixedProposer (third : Option Block) : Node :=
  Scenario.run 1 mixedValidators
    [ .proposal (Scenario.proposal 2 1 0 (Scenario.block 1 10) (-1) []),
      .vote (Scenario.vote 3 2 .prevote 1 0 third),
      .vote (Scenario.vote 2 1 .prevote 1 0 (Scenario.block 1 10)),
      .vote (Scenario.vote 2 1 .precommit 1 3 none),
      .vote (Scenario.vote 3 2 .precommit 1 3 none) ]

/-- Validator 3 at round 3, without a proposal. -/
def mixedReceiver : Node :=
  Scenario.run 3 mixedValidators
    [ .vote (Scenario.vote 2 1 .precommit 1 3 none),
      .vote (Scenario.vote 1 0 .precommit 1 3 none) ]

/-- The proposals of a trace with the state that broadcast them. -/
def broadcasts (n : Node) : List (ConsensusState × Proposal) :=
  n.trace.filterMap fun x =>
    match x.2 with
    | .broadcastProposal p => some (x.1, p)
    | _ => none

theorem mem_broadcasts {n : Node} {cs : ConsensusState} {p : Proposal}
    (h : (cs, p) ∈ broadcasts n) : (cs, .broadcastProposal p) ∈ n.trace := by
  obtain ⟨⟨cs', a⟩, hmem, heq⟩ := List.mem_filterMap.mp h
  cases a <;> cases heq
  exact hmem

/-- The equivalence at a run in which validator 3 prevoted for the block too. -/
theorem own_proposal_accepted_mixed :
    ∃ x ∈ broadcasts (mixedProposer (Scenario.block 1 10)),
      ((∃ new cs', (handle (Scenario.env 3) (.proposal x.2) mixedReceiver).trace =
          new ++ mixedReceiver.trace ∧ (cs', .acceptProposal x.2) ∈ new ∧
          cs'.proposal = some x.2) ↔
        (x.1.validRound < 0 ∨ PureValidRound x.1) ∧
          (mixedReceiver.cs.hasWal = true →
            (Scenario.env 3).walWrite (.ofProposal x.2) = true)) := by
  have hready : ∃ x ∈ broadcasts (mixedProposer (Scenario.block 1 10)),
      (x.1.height = 1 ∧ mixedReceiver.cs.height = 1) ∧
      (x.1.round = 3 ∧ mixedReceiver.cs.round = 3) ∧
      mixedReceiver.cs.validatorSet = x.1.validatorSet ∧ mixedReceiver.panicked = none ∧
      mixedReceiver.cs.config.chainID = [] ∧ mixedReceiver.cs.proposal = none := by
    decide +kernel
  obtain ⟨x, hx, hheight, hround, hset, halive, hchain, hnone⟩ := hready
  refine ⟨x, hx, own_proposal_accepted_iff (Scenario.launch 1 mixedValidators) (Scenario.env 1) _
    (Scenario.key 1) rfl (fun e he p sig hsig => ?_) x.1 x.2 (mem_broadcasts hx) (Scenario.env 3)
    mixedReceiver halive (hheight.2.trans hheight.1.symm) (hround.2.trans hround.1.symm) hset hchain
    hnone fun _ => rfl⟩
  have henv : e = Scenario.env 1 := by
    rcases List.mem_cons.mp he with rfl | he
    · rfl
    · simpa using he
  rw [henv] at hsig
  obtain rfl := Option.some_inj.mp hsig
  exact Scenario.verify_signature 1 _

/-- One nil prevote in the valid round and the proposal with its proof of lock is
rejected by a node that is ready for it. -/
theorem mixed_pol_rejected : ∃ x ∈ broadcasts (mixedProposer none),
    (x.1.height = 1 ∧ mixedReceiver.cs.height = 1) ∧
    (x.1.round = 3 ∧ mixedReceiver.cs.round = 3) ∧
    x.1.validatorSet = mixedReceiver.cs.validatorSet ∧
    x.1.config = mixedReceiver.cs.config ∧ mixedReceiver.panicked = none ∧
    mixedReceiver.cs.proposal = none ∧ (Scenario.env 3).validateBlock x.2.block = true ∧
    validatePOL mixedReceiver.cs.config.chainID mixedReceiver.cs.validatorSet x.2 =
      .error (.nilBlockHash 2) ∧
    (handle (Scenario.env 3) (.proposal x.2) mixedReceiver).cs.proposal = none := by
  decide +kernel

end mixed

end Leaderberry
