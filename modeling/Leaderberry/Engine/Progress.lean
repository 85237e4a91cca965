import Mathlib.Data.Prod.Lex
import Leaderberry.Engine.Lock
import Leaderberry.Engine.Scenario

/-!
# Progress

A node's position is its height, round and step, in lexicographic order. `Advance`
says that the position does not go down and that an accepted proposal is kept while
the height and the round stay the same. `Through` says it of every state a node goes
through, not only of the last one, with the heights of the model (`Onward`), which are not
wrapped; up to height 2^63 - 1 they are those of the code.

Every micro-step but `reenter` is an advance (`MicroStep.through`); re-entering a
round goes back to its propose step and drops the proposal. So an event advances the
node exactly if it does not re-enter (`handle_advances_iff`).
-/

namespace Leaderberry

/-- Height, round and step. The height is the `int64` of the code. -/
def ConsensusState.position (cs : ConsensusState) : Int ×ₗ Int ×ₗ RoundStep :=
  toLex (wrapInt64 cs.height, toLex (cs.round, cs.step))

/-- The position has not gone down, and an accepted proposal of the round is kept. -/
structure Advance (cs cs' : ConsensusState) : Prop where
  position : cs.position ≤ cs'.position
  proposal : wrapInt64 cs'.height = wrapInt64 cs.height → cs'.round = cs.round →
    ∀ p, cs.proposal = some p → cs'.proposal = some p ∧ cs'.proposalBlock = cs.proposalBlock

/-- An advance, with the heights of the model: a later height, a later round, or a later
step of the round with its proposal. -/
structure Onward (cs cs' : ConsensusState) : Prop where
  order : cs.height < cs'.height ∨ cs.height = cs'.height ∧
    (cs.round < cs'.round ∨ cs.round = cs'.round ∧ cs.step ≤ cs'.step)
  proposal : cs'.height = cs.height → cs'.round = cs.round → ∀ p, cs.proposal = some p →
    cs'.proposal = some p ∧ cs'.proposalBlock = cs.proposalBlock

namespace Onward

variable {cs cs' cs'' : ConsensusState}

/-- Moving on within a round. -/
theorem within (hheight : cs'.height = cs.height) (hround : cs'.round = cs.round)
    (hstep : cs.step ≤ cs'.step) (hp : cs'.proposal = cs.proposal)
    (hb : cs'.proposalBlock = cs.proposalBlock) : Onward cs cs' where
  order := .inr ⟨hheight.symm, .inr ⟨hround.symm, hstep⟩⟩
  proposal := fun _ _ _ hsome => ⟨hp.trans hsome, hb⟩

theorem refl (cs : ConsensusState) : Onward cs cs := within rfl rfl le_rfl rfl rfl

/-- Moving to a later round. -/
theorem later_round (hheight : cs'.height = cs.height) (hround : cs.round < cs'.round) :
    Onward cs cs' where
  order := .inr ⟨hheight.symm, .inl hround⟩
  proposal := fun _ heq => by omega

/-- Moving to a later height. -/
theorem later_height (hheight : cs.height < cs'.height) : Onward cs cs' where
  order := .inl hheight
  proposal := fun heq => by omega

/-- Moving on within a round that has no proposal yet. -/
theorem no_proposal (hheight : cs'.height = cs.height) (hround : cs'.round = cs.round)
    (hstep : cs.step ≤ cs'.step) (hp : cs.proposal = none) : Onward cs cs' where
  order := .inr ⟨hheight.symm, .inr ⟨hround.symm, hstep⟩⟩
  proposal := fun _ _ p hsome => by
    rw [hp] at hsome
    cases hsome

theorem height_le (h : Onward cs cs') : cs.height ≤ cs'.height := by
  have := h.order
  omega

theorem trans (h : Onward cs cs') (h' : Onward cs' cs'') : Onward cs cs'' := by
  have h₁ := h.order
  have h₂ := h'.order
  refine ⟨?_, fun hheight hround p hp => ?_⟩
  · rcases h₁ with h₁ | ⟨h₁, h₁ | ⟨hr, hs⟩⟩
    · exact .inl (by omega)
    · rcases h₂ with h₂ | ⟨h₂, h₂ | ⟨h₂', -⟩⟩
      · exact .inl (by omega)
      · exact .inr ⟨by omega, .inl (by omega)⟩
      · exact .inr ⟨by omega, .inl (by omega)⟩
    · rw [h₁, hr]
      exact h₂.imp_right (And.imp_right (Or.imp_right (And.imp_right hs.trans)))
  · -- the state in between is in the same round
    have hmid : cs'.height = cs.height ∧ cs'.round = cs.round := by omega
    obtain ⟨hp', hb'⟩ := h.proposal hmid.1 hmid.2 p hp
    obtain ⟨hp'', hb''⟩ := h'.proposal (hheight.trans hmid.1.symm) (hround.trans hmid.2.symm) p hp'
    exact ⟨hp'', hb''.trans hb'⟩

/-- Heights that fit into an `int64` are the heights of the code. -/
theorem advance (h : Onward cs cs') (hlow : minInt64 ≤ cs.height)
    (hhigh : cs'.height ≤ maxInt64) : Advance cs cs' := by
  have hle := h.height_le
  have hwrap : wrapInt64 cs.height = cs.height := wrapInt64_eq_self hlow (hle.trans hhigh)
  have hwrap' : wrapInt64 cs'.height = cs'.height := wrapInt64_eq_self (hlow.trans hle) hhigh
  refine ⟨?_, ?_⟩
  · simp only [ConsensusState.position, Prod.Lex.toLex_le_toLex, hwrap, hwrap']
    exact h.order
  · rw [hwrap, hwrap']
    exact h.proposal

end Onward

/-- Every state between `n` and `m`, and `m` itself, is an advance on `n`, and none is
above `m`. -/
def Through (n m : Node) : Prop :=
  ∃ l, m.trace = l ++ n.trace ∧ (∀ x ∈ l, Onward n.cs x.1 ∧ x.1.height ≤ m.cs.height) ∧
    Onward n.cs m.cs

namespace Through

variable {n m k : Node}

theorem refl (n : Node) : Through n n := ⟨[], rfl, by simp, .refl _⟩

theorem trans (h : Through n m) (h' : Through m k) : Through n k := by
  obtain ⟨l, hl, hnew, hlast⟩ := h
  obtain ⟨l', hl', hnew', hlast'⟩ := h'
  refine ⟨l' ++ l, by rw [hl', hl, List.append_assoc], fun x hx => ?_, hlast.trans hlast'⟩
  rcases List.mem_append.mp hx with hx | hx
  · exact ⟨hlast.trans (hnew' x hx).1, (hnew' x hx).2⟩
  · exact ⟨(hnew x hx).1, (hnew x hx).2.trans hlast'.height_le⟩

/-- Heights that fit into an `int64` are the heights of the code. -/
theorem advance (h : Through n m) (hlow : minInt64 ≤ n.cs.height)
    (hhigh : m.cs.height ≤ maxInt64) :
    ∃ new, m.trace = new ++ n.trace ∧ (∀ x ∈ new, Advance n.cs x.1) ∧ Advance n.cs m.cs := by
  obtain ⟨l, hl, hnew, hlast⟩ := h
  exact ⟨l, hl, fun x hx => (hnew x hx).1.advance hlow ((hnew x hx).2.trans hhigh),
    hlast.advance hlow hhigh⟩

variable [Externals]

theorem of_entries (env : Env) (input : Option Event) {s : RoundStep}
    (h : Entries env input n m s) (hstep : n.cs.step ≤ s)
    (hlast : Onward n.cs m.cs) : Through n m := by
  obtain ⟨l, hl, hnew⟩ := h
  refine ⟨l, hl, fun x hx => ?_, hlast⟩
  rcases (hnew x hx).eq_or with heq | heq
  · rw [heq]
    exact ⟨hlast, le_rfl⟩
  · rw [heq]
    exact ⟨.within rfl rfl hstep rfl rfl, hlast.height_le⟩

theorem startPrevote (env : Env) (hstep : n.cs.step < .prevote) : Through n n.startPrevote := by
  refine of_entries env none (.startPrevote n) hstep.le ?_
  obtain ⟨lockedRound, lockedBlock, hcs⟩ := startPrevote_frame n
  rw [hcs]
  exact .within rfl rfl hstep.le rfl rfl

theorem startPrecommit (env : Env) (hstep : n.cs.step < .precommit) :
    Through n (n.startPrecommit env).1 := by
  refine of_entries env none (.startPrecommit env n) hstep.le ?_
  obtain ⟨_, _, _, _, hcs⟩ := startPrecommit_frame env n
  rw [hcs]
  exact .within rfl rfl hstep.le rfl rfl

theorem castOwnVote {env : Env} {t : VoteType} {hash : Option Hash}
    (halive : n.panicked = none) : Through n (n.castOwnVote env t hash).1 := by
  refine of_entries env none (.castOwnVote halive) le_rfl ?_
  obtain ⟨votes, hcs⟩ := castOwnVote_frame _ _ _ halive
  rw [hcs]
  exact .within rfl rfl le_rfl rfl rfl

theorem prevoteOnce (env : Env) (halive : n.panicked = none) (hstep : n.cs.step < .prevote) :
    Through n (n.prevoteOnce env) :=
  (startPrevote env hstep).trans (castOwnVote (by simp [halive]))

theorem precommitOnce (env : Env) (hstep : n.cs.step < .precommit) :
    Through n (n.precommitOnce env) := by
  refine (startPrecommit env hstep).trans ?_
  unfold Node.precommitOnce
  cases hp : (n.startPrecommit env).1.panicked with
  | none =>
    rw [Node.andThen_alive hp]
    exact castOwnVote hp
  | some p =>
    rw [Node.andThen_panicked hp]
    exact refl _

theorem takeProposal {env : Env} {input : Option Event} {p : Proposal} {own : Bool}
    (htakes : TakesProposal env input n.cs p own) (hnone : n.cs.proposal = none) :
    Through n (n.takeProposal p own) := by
  refine of_entries env input (.takeProposal htakes) (le_refl n.cs.step) ?_
  rw [Node.takeProposal_cs]
  exact .no_proposal rfl rfl le_rfl hnone

theorem raiseRound (env : Env) (r : Int) : Through n (n.raiseRound r) := by
  refine of_entries env none (.raiseRound r n n.cs.step) le_rfl ?_
  rw [Node.raiseRound_cs]
  rcases lt_or_ge n.cs.round r with hlt | hge
  · exact .later_round rfl (by simpa using hlt)
  · exact .within rfl (by simpa using hge) le_rfl rfl rfl

theorem startCommit (env : Env) (halive : n.panicked = none) (hstep : n.cs.step < .commit) :
    Through n (n.startCommit env) := by
  refine of_entries env none (.startCommit env halive) hstep.le ?_
  rcases startCommit_cases env n halive with ⟨commit, block, updates, newSet, hc⟩ | hf
  · refine .later_height ?_
    rw [hc.cs]
    show n.cs.height < n.cs.height + 1
    omega
  · rw [hf.cs]
    exact .within rfl rfl hstep.le rfl rfl

end Through

section

variable [Externals] {env : Env} {n m : Node} {input : Option Event} {event : Event}
  {cs : ConsensusState}

/-! ## Before Prevote there is no proposal -/

/-- A node that has not reached Prevote has no proposal: accepting one enters
Prevote at once. -/
def NoEarlyProposal (n : Node) : Prop := n.cs.step < .prevote → n.cs.proposal = none

theorem prevoteOnce_step (halive : n.panicked = none) :
    (n.prevoteOnce env).cs.step = .prevote := by
  obtain ⟨votes, hcs⟩ := castOwnVote_frame env .prevote n.cs.decidePrevote.1
    (show n.startPrevote.panicked = none by simp [halive])
  obtain ⟨lockedRound, lockedBlock, hstart⟩ := startPrevote_frame n
  rw [Node.prevoteOnce, hcs, hstart]

theorem precommitOnce_step :
    (n.precommitOnce env).cs.step = .precommit := by
  obtain ⟨_, _, _, _, hstart⟩ := startPrecommit_frame env n
  unfold Node.precommitOnce
  cases hp : (n.startPrecommit env).1.panicked with
  | none =>
    rw [Node.andThen_alive hp]
    obtain ⟨votes, hcs⟩ := castOwnVote_frame env .precommit (n.startPrecommit env).2 hp
    rw [hcs, hstart]
  | some p => rw [Node.andThen_panicked hp, hstart]

theorem NoEarlyProposal.step {re : Bool} (h : NoEarlyProposal n)
    (hstep : MicroStep re env input n m) : NoEarlyProposal m := by
  have late : ∀ {k : Node} {s : RoundStep}, k.cs.step = s → .prevote ≤ s → NoEarlyProposal k :=
    fun hk hs hlt => absurd (hk ▸ hlt) (not_lt.mpr hs)
  cases hstep with
  | emit => exact h
  | halt => exact h
  | startRound => exact fun _ => rfl
  | reenter => exact fun _ => rfl
  | accept _ _ _ hge =>
    refine late ?_ hge
    rw [Node.takeProposal_cs]
  | acceptPrevote halive => exact late (prevoteOnce_step (by simp [halive])) le_rfl
  | proposePrevote halive => exact late (prevoteOnce_step (by simp [halive])) le_rfl
  | prevote halive => exact late (prevoteOnce_step halive) le_rfl
  | prevoteWait => exact late rfl (show RoundStep.prevote ≤ .prevoteWait by decide)
  | precommit => exact late precommitOnce_step (by decide)
  | precommitWait => exact late rfl (show RoundStep.prevote ≤ .precommitWait by decide)
  | receiveVote => exact h
  | @commit r hash halive =>
    rcases startCommit_cases env (n.raiseRound r) (by simp [halive]) with
      ⟨commit, block, updates, newSet, hc⟩ | hf
    · rw [hc.eq]
      intro _
      rw [Node.advanceHeight_cs]
      rfl
    · refine late ?_ (show RoundStep.prevote ≤ RoundStep.commit by decide)
      rw [hf.cs]
      rfl
  | raiseRound _ hge =>
    refine late ?_ ((show RoundStep.prevote ≤ RoundStep.commit by decide).trans hge)
    rw [Node.raiseRound_cs]

/-! ## Micro-steps advance -/

/-- Every micro-step but re-entering a round advances the node. -/
theorem MicroStep.through (hearly : NoEarlyProposal n) (h : MicroStep false env input n m) :
    Through n m := by
  cases h with
  | emit _ ha => exact .of_entries env input (.single rfl (.neutral ha)) le_rfl (.refl _)
  | halt => exact .of_entries env input (.of_trace rfl) le_rfl (.refl _)
  | startRound _ hr =>
    refine .of_entries env input (.single rfl .schedule) le_rfl ?_
    rcases hr with hlt | ⟨heq, hstep⟩
    · exact .later_round rfl hlt
    · refine .no_proposal rfl heq ?_ (hearly hstep)
      show n.cs.step ≤ .propose
      rw [RoundStep.lt_iff] at hstep
      rw [RoundStep.le_iff]
      exact Nat.le_of_lt_succ hstep
  | reenter hre => cases hre
  | accept _ hinput hacc =>
    have htakes : TakesProposal env input n.cs _ false := ⟨hinput, hacc⟩
    exact .takeProposal htakes (acceptsProposal_iff.mp hacc).2.2.1
  | acceptPrevote halive hinput hacc hstep =>
    have htakes : TakesProposal env input n.cs _ false := ⟨hinput, hacc⟩
    refine (Through.takeProposal htakes (acceptsProposal_iff.mp hacc).2.2.1).trans
      (.prevoteOnce _ (by simp [halive]) ?_)
    rw [Node.takeProposal_cs]
    exact hstep
  | proposePrevote halive hown =>
    have hstep : n.cs.step < .prevote := by
      rw [hown.step]
      decide
    have htakes : TakesProposal env input n.cs _ true := hown
    refine (Through.takeProposal htakes (hearly hstep)).trans (.prevoteOnce _ (by simp [halive]) ?_)
    rw [Node.takeProposal_cs]
    exact hstep
  | prevote halive hstep => exact .prevoteOnce _ halive hstep
  | prevoteWait _ hstep =>
    exact .of_entries env input (.single rfl .schedule) le_rfl (.within rfl rfl hstep.le rfl rfl)
  | precommit _ hstep => exact .precommitOnce _ hstep
  | precommitWait _ hstep =>
    exact .of_entries env input (.single rfl .schedule) le_rfl (.within rfl rfl hstep.le rfl rfl)
  | receiveVote =>
    exact .of_entries env input (.of_trace rfl) le_rfl (.within rfl rfl le_rfl rfl rfl)
  | commit halive _ _ hstep =>
    refine (Through.raiseRound env _).trans (.startCommit _ (by simp [halive]) ?_)
    rw [Node.raiseRound_cs]
    exact hstep
  | raiseRound => exact .raiseRound env _

theorem Steps.through (hearly : NoEarlyProposal n) (h : Steps false env input n m) :
    Through n m ∧ NoEarlyProposal m :=
  h.invariant (P := fun k => Through n k ∧ NoEarlyProposal k) ⟨.refl n, hearly⟩
    fun _ _ hk hstep => ⟨hk.1.trans (hstep.through hk.2), hk.2.step hstep⟩

/-- A run does not go below its first height. -/
theorem height_le_run (l : Launch) (env : Env) (events : List (Env × Event)) :
    l.height ≤ (l.run env events).cs.height :=
  Launch.run_invariant (P := fun n => l.height ≤ n.cs.height) le_rfl
    fun _ _ _ _ hn hstep => hn.trans (Steps.height_le (.single hstep))

theorem noEarlyProposal_run (l : Launch) (env : Env) (events : List (Env × Event)) :
    NoEarlyProposal (l.run env events) :=
  Launch.run_invariant (fun _ => rfl) fun _ _ _ _ hn hstep => hn.step hstep

/-! ## Re-entering a round -/

omit [Externals] in
theorem nextRound_last : ConsensusState.nextRound (2 ^ 31 - 1) = 2 ^ 31 - 1 := by decide

/-- A re-entering timeout enters the round the node is in. -/
theorem Reenters.handle_eq (env : Env) (halive : n.panicked = none) (h : Reenters n.cs event) :
    handle env event n = enterNewRoundLocked env (sign env) n.cs.height n.cs.round n := by
  cases event with
  | proposal p => cases h
  | vote v => cases h
  | timeout ti =>
    obtain ⟨hheight, hround, -, hstep⟩ := h
    rw [handle, Node.andThen_alive halive]
    dsimp only
    unfold handleTimeout
    rw [if_neg (by simp [hheight, hround])]
    rcases hstep with ⟨hcommit, hzero⟩ | ⟨hwait, hstep, hlast⟩
    · simp only [hcommit, hzero]
    · simp only [hwait, if_pos hstep, hlast, nextRound_last]

omit [Externals] in
theorem Reenters.step (h : Reenters cs event) :
    .prevote ≤ cs.step := by
  cases event with
  | proposal p => cases h
  | vote v => cases h
  | timeout ti => exact h.2.2.1

theorem Reenters.trace (env : Env) (halive : n.panicked = none) (h : Reenters n.cs event) :
    (n.startRound n.cs.round).trace <:+ (handle env event n).trace := by
  rw [h.handle_eq env halive]
  unfold enterNewRoundLocked
  rw [if_neg (by simp)]
  have hsign : SignSteps true env none (sign env) := signSteps env.depth
  exact Steps.trace_suffix (enterNewRoundLocked_after hsign halive n.cs.round)

omit [Externals] in
/-- The propose step of a round lies before every state that re-enters it. -/
theorem Reenters.position_lt (h : Reenters cs event) :
    (cs.enterRound cs.round).position < cs.position := by
  rw [← not_le]
  unfold ConsensusState.position
  rw [Prod.Lex.toLex_le_toLex, Prod.Lex.toLex_le_toLex]
  rintro (hlt | ⟨-, hlt | ⟨-, hle⟩⟩)
  · exact lt_irrefl _ hlt
  · exact lt_irrefl _ hlt
  · have hback : RoundStep.prevote ≤ RoundStep.propose := h.step.trans hle
    revert hback
    decide

/-- A node that re-enters a round goes back to its propose step. -/
theorem Reenters.not_advance (halive : n.panicked = none) (h : Reenters n.cs event) :
    ¬ ∃ new, (handle env event n).trace = new ++ n.trace ∧
      (∀ x ∈ new, Advance n.cs x.1) ∧ Advance n.cs (handle env event n).cs := by
  rintro ⟨l, hl, hnew, -⟩
  obtain ⟨l', hl'⟩ := h.trace env halive
  have hsplit : l = l' ++ [((n.startRound n.cs.round).cs,
      .scheduleTimeout ⟨n.cs.height, n.cs.round, .propose⟩)] := by
    have happend : l ++ n.trace = l' ++ (n.startRound n.cs.round).trace := hl.symm.trans hl'.symm
    rw [Node.startRound_trace, ← List.singleton_append, ← List.append_assoc] at happend
    exact List.append_cancel_right happend
  have hadvance := hnew _ (hsplit ▸ List.mem_append_right _ (List.mem_singleton_self _))
  exact absurd hadvance.position (not_le.mpr h.position_lt)

/-- A node that re-enters a round and is not its proposer stays in the propose step. -/
theorem Reenters.handle_startRound (env : Env) {n : Node} {event : Event}
    (halive : n.panicked = none) (h : Reenters n.cs event)
    (hother : ∀ proposer, n.cs.validatorSet.getProposerForRound n.cs.round = some proposer →
      n.cs.privVal ≠ some proposer.publicKey) :
    handle env event n = n.startRound n.cs.round := by
  rw [h.handle_eq env halive]
  unfold enterNewRoundLocked
  rw [if_neg (by simp)]
  dsimp only
  split
  · rfl
  · rename_i proposer hproposer
    exact if_neg (hother proposer hproposer)

/-- An event that does not re-enter a round advances the node. -/
theorem through_handle (l : Launch) (env : Env) (events : List (Env × Event)) (env' : Env)
    (hno : ¬ ((l.run env events).panicked = none ∧ Reenters (l.run env events).cs event)) :
    Through (l.run env events) (handle env' event (l.run env events)) := by
  cases hp : (l.run env events).panicked with
  | none =>
    have hsteps : Steps false env' (some event) _ (handle env' event (l.run env events)) :=
      handle_steps event (.inr fun hre => hno ⟨hp, hre⟩)
    exact (hsteps.through (noEarlyProposal_run l env events)).1
  | some p =>
    rw [show handle env' event (l.run env events) = _ from Node.andThen_panicked hp _]
    exact .refl _

omit [Externals] in
/-- After height 2^63 - 1 comes the lowest `int64`. -/
theorem position_lt_of_overflow {cs' : ConsensusState} (hlow : minInt64 ≤ cs.height)
    (hhigh : cs.height ≤ maxInt64) (hover : maxInt64 < cs'.height)
    (hfew : cs'.height < cs.height + 2 ^ 64) : cs'.position < cs.position := by
  have hwrap : wrapInt64 cs.height = cs.height := wrapInt64_eq_self hlow hhigh
  have hwrap' : wrapInt64 cs'.height = cs'.height - 2 ^ 64 := by
    unfold maxInt64 at hover hhigh
    calc wrapInt64 cs'.height
        = wrapInt64 (cs'.height - 2 ^ 64 + (2 ^ 64 : Nat)) := by
          congr 1
          norm_num
      _ = wrapInt64 (cs'.height - 2 ^ 64) := Int.add_bmod_right _ _
      _ = cs'.height - 2 ^ 64 :=
          wrapInt64_eq_self (by unfold minInt64; omega) (by unfold maxInt64; omega)
  unfold ConsensusState.position
  rw [Prod.Lex.toLex_lt_toLex, hwrap, hwrap']
  exact .inl (by omega)

/-- **Monotone progress.** In every reachable state, handling an event goes only
through states at the same or a later height, round and step, which keep an accepted
proposal of the round, exactly if the event is not a timeout that re-enters the
round of a running node. This is for events that do not commit height 2^63 - 1: after it
the height of the code starts over below. A node that re-enters a round of another
proposer ends behind where it was, without the proposal. -/
theorem handle_advances_iff (l : Launch) (env : Env) (events : List (Env × Event))
    (env' : Env) (event : Event) (hlow : minInt64 ≤ l.height) :
    let n := l.run env events
    let m := handle env' event n
    (m.cs.height ≤ maxInt64 →
      ((∃ new, m.trace = new ++ n.trace ∧ (∀ x ∈ new, Advance n.cs x.1) ∧ Advance n.cs m.cs) ↔
        ¬ (n.panicked = none ∧ Reenters n.cs event))) ∧
    (n.cs.height ≤ maxInt64 → maxInt64 < m.cs.height → m.cs.height < n.cs.height + 2 ^ 64 →
      m.cs.position < n.cs.position) ∧
    (n.panicked = none → Reenters n.cs event →
      (∀ proposer, n.cs.validatorSet.getProposerForRound n.cs.round = some proposer →
        n.cs.privVal ≠ some proposer.publicKey) →
      m.cs.position < n.cs.position ∧ m.cs.proposal = none) := by
  intro n m
  have hlow' : minInt64 ≤ n.cs.height := hlow.trans (height_le_run l env events)
  refine ⟨fun hhigh => ⟨?_, fun hno => ?_⟩, position_lt_of_overflow hlow',
    fun halive hre hother => ?_⟩
  · rintro hadvance ⟨halive, hre⟩
    exact hre.not_advance halive hadvance
  · exact (through_handle l env events env' hno).advance hlow' hhigh
  · have heq : m = n.startRound n.cs.round := hre.handle_startRound env' halive hother
    rw [heq]
    exact ⟨hre.position_lt, rfl⟩

end

section lateCommit

attribute [local instance] transparent

/-- Validator 1 holds nine tenths of the power. -/
def lateCommitValidators : { vs : ValidatorSet // vs.Wf } :=
  Scenario.validatorSet [(1, 9), (2, 1)] Scenario.isOk_strong

/-- Validator 2 commits height 1 and accepts the proposal of (2, 0) before its commit
timeout fires. -/
def lateCommitEvents : List Event :=
  [ .proposal (Scenario.proposal 1 1 0 (Scenario.block 1 10) (-1) []),
    .vote (Scenario.vote 1 0 .precommit 1 0 (Scenario.block 1 10)),
    .proposal (Scenario.proposal 1 2 0 (Scenario.block 2 20) (-1) []) ]

def lateCommitRun : Node := Scenario.run 2 lateCommitValidators lateCommitEvents

/-- The commit timeout that was scheduled when height 1 was committed takes the node
from Prevote back to Propose and drops the accepted proposal. -/
theorem late_commit_timeout :
    let ti : TimeoutInfo := ⟨2, 0, .commit⟩
    let m := handle (Scenario.env 2) (.timeout ti) lateCommitRun
    (∃ x ∈ lateCommitRun.trace, x.2 = .scheduleTimeout ti) ∧
    lateCommitRun.panicked = none ∧
    (lateCommitRun.cs.height = 2 ∧ lateCommitRun.cs.round = 0 ∧
      lateCommitRun.cs.step = .prevote ∧
      lateCommitRun.cs.proposalBlock = some (Scenario.block 2 20)) ∧
    (m.cs.height = 2 ∧ m.cs.round = 0 ∧ m.cs.step = .propose ∧ m.cs.proposal = none ∧
      m.cs.proposalBlock = none) := by
  decide +kernel

/-- The proposal of height 2 advances the node, the late commit timeout takes it back. -/
theorem handle_advances_late :
    let n := Scenario.run 2 lateCommitValidators (lateCommitEvents.take 2)
    let e : Event := .proposal (Scenario.proposal 1 2 0 (Scenario.block 2 20) (-1) [])
    let m := handle (Scenario.env 2) e n
    (∃ new, m.trace = new ++ n.trace ∧ (∀ x ∈ new, Advance n.cs x.1) ∧ Advance n.cs m.cs) ∧
    (handle (Scenario.env 2) (.timeout ⟨2, 0, .commit⟩) lateCommitRun).cs.position <
      lateCommitRun.cs.position := by
  intro n e m
  have hproposer : ∀ proposer ∈
      lateCommitRun.cs.validatorSet.getProposerForRound lateCommitRun.cs.round,
      lateCommitRun.cs.privVal ≠ some proposer.publicKey := by
    decide +kernel
  have hadvances := handle_advances_iff (Scenario.launch 2 lateCommitValidators) (Scenario.env 2)
    ((lateCommitEvents.take 2).map fun e => (Scenario.env 2, e)) (Scenario.env 2) e (by decide)
  have hback := handle_advances_iff (Scenario.launch 2 lateCommitValidators) (Scenario.env 2)
    (lateCommitEvents.map fun e => (Scenario.env 2, e)) (Scenario.env 2) (.timeout ⟨2, 0, .commit⟩)
    (by decide)
  have hstate : (lateCommitRun.cs.height = 2 ∧ lateCommitRun.cs.round = 0) ∧
      lateCommitRun.cs.step = .prevote ∧ lateCommitRun.panicked = none := by
    decide +kernel
  obtain ⟨⟨hheight, hround⟩, hstep, halive⟩ := hstate
  refine ⟨(hadvances.1 (by decide +kernel)).mpr fun h => h.2, (hback.2.2 halive ?_ hproposer).1⟩
  exact ⟨hheight.symm, hround.le, hstep.ge, .inl ⟨rfl, hround⟩⟩

end lateCommit

end Leaderberry
