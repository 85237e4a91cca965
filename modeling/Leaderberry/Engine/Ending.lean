import Leaderberry.Engine.OwnVote
import Leaderberry.Engine.Arrival

/-!
# Where an event ends

With `SkipTimeoutCommit` the commit of a block enters the next height at once. If the answer
of the application leaves that height to this node alone, then the node proposes, prevotes,
precommits and commits there too, and nothing ends the recursion but the stack
(`Begins.overruns`). Otherwise the event ends at the next height (`Committed.applied_next`).
By `handle_reached` there is nothing else an event can do, which gives `event_ends`.
-/

namespace Leaderberry

section

variable [Externals] {env : Env} {n : Node}

/-! ## Alone -/

/-- The stack is used up, or height `h` is committed. -/
def Overruns (h : Int) (n : Node) : Prop := ¬ Fits n ∨ h < n.cs.height

section sole

variable {cs : ConsensusState} {block : Block} {i : Nat} {val : NamedValidator}
  (hproductive : Productive env cs) (hne : isHashEmpty (some (blockHash block)) = false)
  (hown : cs.ownValidator = some (i, val)) (hquorum : cs.validatorSet.HasQuorum {i})
  (hballot : cs.ballot i = none)

include hproductive hne hown hquorum hballot

/-- The precommit of a validator that is a quorum of its own commits the height. -/
theorem Ready.overruns_precommit (h : Ready block cs n)
    (hlock : OwnLock .precommit (some (blockHash block)) n) (depth : Nat) :
    Overruns cs.height
      (signAndSendVoteLocked env depth .precommit (some (blockHash block)) n) := by
  cases depth with
  | zero =>
    obtain ⟨_, _, hcasts⟩ :=
      h.casts hproductive (.inr rfl) hown (h.voteOf_eq_none hballot) (some (blockHash block))
    refine signAndSendVoteLocked_zero (fun hnone => ?_) fun _ _ _ => .inl fun hfits => hfits rfl
    rw [hcasts] at hnone
    cases hnone
  | succ depth =>
    refine h.precommit_cases hproductive hown hballot hlock (fun _ _ hk => hk) (fun m hm => ?_)
      fun m _ _ _ hc halive hhere _ _ => ?_
    · -- a quorum that is stored is committed
      refine absurd ?_ (hm.steady.not_hasQuorum hm.alive hne)
      have hmem : i ∈ m.cs.counted (blockHash block) ∅ := by
        rw [ConsensusState.mem_counted hne, hm.keeps.ballot]
        simp
      rw [← hm.keeps.validatorSet] at hquorum
      exact hquorum.mono (hm.steady.sound.validatorSet ▸ hm.steady.sound.votes.wf)
        (Finset.singleton_subset_iff.mpr hmem)
    · have hsteps : Steps true env none (m.startCommit env)
          (m.commitOn env (signAndSendVoteLocked env depth)) :=
        commitOn_steps (signSteps depth) halive
      have hle := hsteps.height_le
      rw [hc.height, hhere.height] at hle
      exact .inr hle

/-- Its prevote leads to the precommit. -/
theorem Ready.overruns_prevote (h : Ready block cs n) (hstep : n.cs.step = .prevote)
    (hfresh : n.cs.votes.voteOf .prevote n.cs.round i = none) (depth : Nat) :
    Overruns cs.height
      (signAndSendVoteLocked env depth .prevote (some (blockHash block)) n) := by
  cases depth with
  | zero =>
    obtain ⟨_, _, hcasts⟩ :=
      h.casts hproductive (.inl rfl) hown hfresh (some (blockHash block))
    refine signAndSendVoteLocked_zero (fun hnone => ?_) fun _ _ _ => .inl fun hfits => hfits rfl
    rw [hcasts] at hnone
    cases hnone
  | succ depth =>
    have hprevotes : PrevoteQuorum n.cs (blockHash block) i (some (blockHash block)) := by
      rw [PrevoteQuorum, if_pos rfl, h.keeps.validatorSet]
      exact hquorum.mono (h.keeps.validatorSet ▸
        h.steady.sound.validatorSet ▸ h.steady.sound.votes.wf) (by simp)
    refine h.prevote_cases hproductive hne hstep hown hfresh (fun _ _ hk => hk)
      (fun hno => absurd hprevotes (hno _)) fun _ m _ hm own hlock hvote => ?_
    rw [hvote _ hprevotes, if_pos rfl] at hlock ⊢
    exact hm.overruns_precommit hproductive hne hown hquorum hballot hlock depth

end sole

/-- Left alone with the next height, the node commits it as well. -/
theorem Begins.overruns (hn : Begins n.cs) (hsole : Sole n.cs.validatorSet n.cs)
    (hhere : Here n.cs n) (hsteady : Steady n) (halive : n.panicked = none)
    (hexec : n.cs.hasExecutor = true) (hproductive : Productive env n.cs) (depth : Nat) :
    Overruns n.cs.height
      (enterNewRoundLocked env (signAndSendVoteLocked env depth) n.cs.height 0 n) := by
  obtain ⟨⟨proposer, hproposer, hkey⟩, index, val, hown, hstrong⟩ := hsole
  have hproposer' : (n.startRound 0).cs.validatorSet.getProposerForRound
    (n.startRound 0).cs.round = some proposer := hproposer
  have hempty : ∀ t r, n.cs.votes.voteOf t r index = none := fun t r => by
    rw [HeightVoteSet.voteOf, hn.empty]
    rfl
  unfold enterNewRoundLocked
  rw [if_neg (by simp [hn.round])]
  dsimp only
  rw [hproposer']
  dsimp only
  rw [if_pos (by exact hkey)]
  refine createAndSendProposalLocked_cases (P := Overruns n.cs.height) halive
    (fun m _ _ _ hfailed => ?_) (fun m hwal _ _ _ => ?_) fun m p _ hm hcs hs hblock => ?_
  · -- the application makes a block, and the private validator signs the proposal
    rcases hfailed proposer hproposer' with hnone | ⟨p, hnone⟩
    · obtain ⟨block, hblock, -⟩ :=
        hproductive.create ⟨n.cs.height, n.cs.lastCommit, proposer.name⟩
      rw [hn.startRound_blockToPropose, if_pos hexec, hblock] at hnone
      cases hnone
    · obtain ⟨signature, hsign⟩ := hproductive.propose p
      rw [hnone] at hsign
      cases hsign
  · obtain ⟨msg, hmsg⟩ := hwal
    rw [hproductive.wal msg] at hmsg
    cases hmsg
  · have hne : isHashEmpty (some (blockHash p.block)) = false := by
      rw [hn.startRound_blockToPropose, if_pos hexec] at hblock
      obtain ⟨block, hcreated, hne⟩ := hproductive.create _
      rw [hcreated] at hblock
      cases hblock
      exact hne
    have hsteady' : Steady m := by
      refine hsteady.of_votes ?_ (hm.trans halive.symm) (by rw [hcs]; rfl) fun _ => ?_
      · rw [hcs]
        exact (hsteady.sound.change (.enterRound hn.round.le)).change .proposal
      · rw [hcs]
        exact show RoundStep.propose < .commit by decide
    have hunlocked : m.cs.lockedBlock = none := by
      rw [hcs]
      exact hn.unlocked
    have hstep : m.cs.step < .prevote := by
      rw [hcs]
      exact show RoundStep.propose < .prevote by decide
    have hstart := startPrevote_unlocked hunlocked
    unfold enterPrevoteLocked
    rw [if_neg (by simp [hstep]), decidePrevote_unlocked hunlocked (by rw [hcs]), hstart]
    have hk : Ready p.block (m.setStep .prevote).cs (m.setStep .prevote) := by
      refine ⟨⟨hm, hstart ▸ hsteady'.startPrevote, ?_⟩, ?_⟩
      · refine ⟨rfl, rfl, rfl, rfl, ?_, .inl hunlocked, rfl⟩
        rw [Node.setStep, hcs]
      · have hstill := ((Still.startRound n 0).trans hs).trans (.setStep m .prevote)
        refine ⟨(hstart ▸ hsteady'.startPrevote : Steady (m.setStep .prevote)).sound, rfl, rfl, ?_⟩
        rw [hstill.calls, hstill.height]
        exact hhere.below
    have hheight : (m.setStep .prevote).cs.height = n.cs.height := by
      rw [Node.setStep, hcs]
      rfl
    have hquorum : n.cs.validatorSet.HasQuorum {index} := by
      rw [ValidatorSet.HasQuorum, Finset.sum_singleton]
      rwa [ValidatorSet.power, getByIndex_ownValidator hown]
    have hown' : (m.setStep .prevote).cs.ownValidator = some (index, val) := by
      rw [Node.setStep, hcs]
      exact hown
    rw [← hheight]
    refine hk.overruns_prevote (hproductive.congr (by rw [Node.setStep, hcs]; rfl)) hne hown'
      ?_ ?_ rfl ?_ depth
    all_goals rw [Node.setStep, hcs]
    · exact hquorum
    · exact ConsensusState.ballot_eq_none.mpr (hempty _ _)
    · exact hempty _ _

/-! ## After a commit -/

/-- The event ends with the commit: at the next height, or with a commit that failed. -/
structure Concludes (env : Env) (cs : ConsensusState) (n : Node) : Prop where
  fits : Fits n
  height : n.cs.height ≤ cs.height + 1
  round : n.panicked = none → n.cs.round = 0
  apart : Productive env cs → ¬ n.LeftAlone env.applyBlock cs.height

/-- The node was left alone with the next height. -/
structure RunsOn (env : Env) (cs : ConsensusState) (n : Node) : Prop where
  alone : n.LeftAlone env.applyBlock cs.height
  overruns : Productive env cs → Overruns (cs.height + 1) n

section commit

variable {env : Env} {cs : ConsensusState} {n m : Node}

theorem Node.LeftAlone.mono {apply : Block → Commit → Option (List ValidatorUpdate)} {h : Int}
    (hn : n.LeftAlone apply h) (hsuffix : n.trace <:+ m.trace) : m.LeftAlone apply h := by
  obtain ⟨x, hx, halone⟩ := hn
  exact ⟨x, Node.calls_subset hsuffix hx, halone⟩

theorem RunsOn.steps (h : RunsOn env cs n) (halive : n.panicked = none)
    {input : Option Event} {env' : Env} (hsteps : Steps true env' input n m) :
    RunsOn env cs m where
  alone := h.alone.mono hsteps.trace_suffix
  overruns := fun hproductive => by
    rcases h.overruns hproductive with hstack | hheight
    · exact absurd (fits_of_alive halive) hstack
    · exact .inr (hheight.trans_le hsteps.height_le)

variable {commit : Commit} {block : Block} {updates : List ValidatorUpdate}
  {newSet : ValidatorSet}

/-- The answer to the call of a commit leaves the node alone if it is the only quorum of the
next set, and proposes. -/
theorem Committed.leftAlone_iff (hc : Committed n env commit block updates newSet m)
    (hbelow : ∀ x ∈ n.calls, x.1.height < n.cs.height) :
    m.LeftAlone env.applyBlock n.cs.height ↔ n.cs.hasExecutor = true ∧
      m.cs.config.skipTimeoutCommit = true ∧ Sole m.cs.validatorSet m.cs := by
  rw [hc.cs]
  constructor
  · rintro ⟨x, hx, hheight, hskip, updates', newSet', happly, hset, hsole⟩
    rw [hc.calls_eq] at hx
    by_cases hexec : n.cs.hasExecutor = true
    · rw [if_pos hexec] at hx
      have hexecuted := hc.executed
      rw [if_pos hexec] at hexecuted
      rcases List.mem_cons.mp hx with rfl | hx
      · cases hexecuted.symm.trans happly
        cases hc.nextSet.symm.trans hset
        exact ⟨hexec, hskip, hsole⟩
      · exact absurd hheight (hbelow x hx).ne
    · rw [if_neg hexec] at hx
      exact absurd hheight (hbelow x hx).ne
  · rintro ⟨hexec, hskip, hsole⟩
    have hexecuted := hc.executed
    rw [if_pos hexec] at hexecuted
    refine ⟨((n.setStep .commit).cs, block, commit), ?_, rfl, hskip, updates, newSet, hexecuted,
      hc.nextSet, hsole⟩
    rw [hc.calls hexec]
    exact List.mem_cons_self

theorem Committed.calls_below (hc : Committed n env commit block updates newSet m)
    (hbelow : ∀ x ∈ n.calls, x.1.height < n.cs.height) :
    ∀ x ∈ m.calls, x.1.height < m.cs.height := by
  have hold : ∀ x ∈ n.calls, x.1.height < n.cs.height + 1 := fun x hx =>
    (hbelow x hx).trans (Int.lt_succ _)
  rw [hc.calls_eq, hc.height]
  split
  · exact List.forall_mem_cons.mpr ⟨Int.lt_succ _, hold⟩
  · exact hold

/-- Where a commit that goes through ends, with the next height entered or not. -/
theorem Committed.next (hc : Committed n env commit block updates newSet (n.startCommit env))
    (hn : Here cs n) (halive : n.panicked = none) (depth : Nat) {k : Node}
    (hk : k = n.commitOn env (signAndSendVoteLocked env (depth + 1))) :
    (Concludes env cs k ∧ k.cs.height = cs.height + 1 ∧ (Works env cs → k.panicked = none)) ∨
      RunsOn env cs k := by
  have hbegins := hc.begins
  have hsteady := Steady.committed hn.sound halive hc
  have hchanges : Changes n.cs (n.startCommit env).cs := startCommit_changes halive
  have hwiring := hchanges.wiring.trans hn.wiring
  have halive' : (n.startCommit env).panicked = none := by
    rw [hc.eq, Node.advanceHeight_panicked]
    exact halive
  have hheight : (n.startCommit env).cs.height = cs.height + 1 := by
    rw [hc.height, hn.height]
  have hhere : Here (n.startCommit env).cs (n.startCommit env) :=
    ⟨hsteady.sound, rfl, rfl, hc.calls_below (by rw [hn.height]; exact hn.below)⟩
  have halone := hc.leftAlone_iff (by rw [hn.height]; exact hn.below)
  have hsteps : Steps true env none (n.startCommit env) k :=
    hk ▸ commitOn_steps (signSteps (depth + 1)) halive
  rw [hn.height] at halone
  rw [Node.commitOn, Node.andThen_alive halive'] at hk
  have hexec : (n.startCommit env).cs.hasExecutor = n.cs.hasExecutor :=
    congrArg Wiring.hasExecutor hchanges.wiring
  by_cases hskip : (n.startCommit env).cs.config.skipTimeoutCommit = true
  · rw [if_pos hskip] at hk
    by_cases hleft : (n.startCommit env).LeftAlone env.applyBlock cs.height
    · right
      obtain ⟨hexec', -, hsole⟩ := halone.mp hleft
      refine ⟨hleft.mono hsteps.trace_suffix, fun hproductive => ?_⟩
      rw [hk, ← hheight]
      exact hbegins.overruns hsole hhere hsteady halive' (hexec.trans hexec')
        (hproductive.congr hwiring) (depth + 1)
    · left
      have hweak : (n.startCommit env).cs.hasExecutor = true →
          ¬ Sole (n.startCommit env).cs.validatorSet (n.startCommit env).cs :=
        fun hexec' hsole => hleft (halone.mpr ⟨hexec.symm.trans hexec', hskip, hsole⟩)
      have hstays : Stays (n.startCommit env) k := by
        rw [hk]
        exact hbegins.stays (signLone env depth) hweak halive'
      have hheight' := hstays.height.trans hheight
      refine ⟨⟨hstays.fits, hheight'.le, fun _ => hstays.round.trans hbegins.round, fun _ => ?_⟩,
        hheight', fun hworks => ?_⟩
      · unfold Node.LeftAlone
        rw [hstays.calls]
        exact hleft
      · rw [hk]
        exact hbegins.alive hweak (hworks.congr hwiring) hsteady.sound halive' depth
  · left
    rw [if_neg hskip] at hk
    subst hk
    exact ⟨⟨fits_of_alive halive', hheight.le, fun _ => hbegins.round,
      fun _ hleft => hskip (halone.mp hleft).2.1⟩, hheight, fun _ => halive'⟩

/-- What an event can have led to after a commit. -/
theorem aftermath : Aftermath env cs fun n => Concludes env cs n ∨ RunsOn env cs n where
  commit := fun depth n halive hn => by
    rcases startCommit_cases env n halive with ⟨commit, block, updates, newSet, hc⟩ | hf
    · exact (hc.next hn halive depth rfl).imp_left And.left
    · obtain ⟨p, hp⟩ := hf.panicked
      rw [Node.commitOn, Node.andThen_panicked hp]
      refine .inl ⟨Fits.startCommit halive, ?_, fun halive' => ?_, fun hproductive hleft => ?_⟩
      · rw [hf.cs]
        show n.cs.height ≤ cs.height + 1
        rw [hn.height]
        exact Int.le_add_one le_rfl
      · rw [hp] at halive'
        cases halive'
      · rcases hf.calls with hcalls | ⟨commit, block, hchoice, -⟩
        · obtain ⟨x, hx, hheight, -⟩ := hleft
          rw [hcalls] at hx
          exact (hn.below x hx).ne hheight
        · -- the application accepts what is committed
          rw [hchoice.startCommit_panicked (hproductive.congr hn.wiring).serves halive] at hp
          cases hp
  emit := fun n v hn => by
    have hstill : Still n (n.emit (.broadcastVote v)) := .emit n rfl
    rcases hn with hn | hn
    · refine .inl ⟨hn.fits, hn.height, hn.round, fun hproductive => ?_⟩
      unfold Node.LeftAlone
      rw [hstill.calls]
      exact hn.apart hproductive
    · exact .inr ⟨hn.alone.mono (List.suffix_cons ..), hn.overruns⟩
  prevote := fun depth n height r hn halive hr => by
    rcases hn with hn | hn
    · unfold enterPrevoteLocked
      rw [if_pos (.inr (.inl (by rw [hn.round halive]; exact hr.ne)))]
      exact .inl hn
    · have hsteps : Steps true env none n
          (enterPrevoteLocked (signAndSendVoteLocked env depth) height r n) :=
        enterPrevoteLocked_steps (signSteps depth) halive height r
      exact .inr (hn.steps halive hsteps)
  precommit := fun depth n height r hn halive hr => by
    rcases hn with hn | hn
    · unfold enterPrecommitLocked
      rw [if_pos (.inr (.inl (by rw [hn.round halive]; exact hr.ne)))]
      exact .inl hn
    · have hsteps : Steps true env none n
          (enterPrecommitLocked env (signAndSendVoteLocked env depth) height r n) :=
        enterPrecommitLocked_steps (signSteps depth) halive height r
      exact .inr (hn.steps halive hsteps)

end commit

/-! ## Events -/

/-- Calls are made at lower heights. -/
def CallsBelow (n : Node) : Prop :=
  n.panicked = none → ∀ x ∈ n.calls, x.1.height < n.cs.height

theorem CallsBelow.atom {input : Option Event} {m : Node} (h : CallsBelow n)
    (ha : Atom env input n m) : CallsBelow m := by
  intro halive
  rcases ha.still with hstill | ⟨hn, rfl⟩
  · rw [hstill.calls, hstill.height]
    exact h (by_contra fun hp => hstill.panicked hp halive)
  · rcases startCommit_cases env n hn with ⟨commit, block, updates, newSet, hc⟩ | hf
    · exact hc.calls_below (h hn)
    · obtain ⟨p, hp⟩ := hf.panicked
      rw [halive] at hp
      cases hp

theorem callsBelow_run (l : Launch) (env : Env) (events : List (Env × Event)) :
    CallsBelow (l.run env events) :=
  Launch.run_invariant (P := CallsBelow) (fun _ _ hx => absurd hx List.not_mem_nil)
    fun _ _ _ _ hn hstep => hstep.atoms.invariant (P := CallsBelow) hn fun _ _ hk ha => hk.atom ha

/-- The stack was sufficient, and at most one height was committed since `cs`. -/
def Ends (cs : ConsensusState) (n : Node) : Prop := Fits n ∧ n.cs.height ≤ cs.height + 1

/-- An event ends if it does not leave the node alone with the next height, and in an
environment that works only then. -/
def EndsUnlessAlone (env : Env) (cs : ConsensusState) (n : Node) : Prop :=
  (¬ n.LeftAlone env.applyBlock cs.height → Ends cs n) ∧
    (Productive env cs → (Ends cs n ↔ ¬ n.LeftAlone env.applyBlock cs.height))

theorem Reached.endsUnlessAlone {cs : ConsensusState}
    (h : Reached cs (fun n => Concludes env cs n ∨ RunsOn env cs n) n) :
    EndsUnlessAlone env cs n := by
  rcases h with ⟨hfits, hhere⟩ | hconcludes | hruns
  · have hends : Ends cs n := ⟨hfits, by rw [hhere.height]; exact Int.le_add_one le_rfl⟩
    have hapart : ¬ n.LeftAlone env.applyBlock cs.height := by
      rintro ⟨x, hx, hheight, -⟩
      exact (hhere.below x hx).ne hheight
    exact ⟨fun _ => hends, fun _ => ⟨fun _ => hapart, fun _ => hends⟩⟩
  · have hends : Ends cs n := ⟨hconcludes.fits, hconcludes.height⟩
    exact ⟨fun _ => hends,
      fun hproductive => ⟨fun _ => hconcludes.apart hproductive, fun _ => hends⟩⟩
  · refine ⟨fun hapart => absurd hruns.alone hapart, fun hproductive =>
      ⟨fun hends => ?_, fun hapart => absurd hruns.alone hapart⟩⟩
    rcases hruns.overruns hproductive with hstack | hheight
    · exact absurd hends.1 hstack
    · exact absurd hends.2 (not_le.mpr hheight)

/-- **An event ends.** `Start`, and every event in every state that a run reaches, needs no
more of the stack than three nested own votes and commits at most one height, unless with
`SkipTimeoutCommit` it applies a block and the answer of the application to this call leaves
the next height to this node alone. If it does, and everything around the node works, then
the event does not end. -/
theorem event_ends (l : Launch) (env : Env) (events : List (Env × Event)) :
    (3 ≤ env.depth → EndsUnlessAlone env l.fresh.cs (l.start env)) ∧
    ∀ e : Env × Event, 3 ≤ e.1.depth → (l.run env events).panicked = none →
      EndsUnlessAlone e.1 (l.run env events).cs (l.run env (events ++ [e])) := by
  constructor
  · intro hdepth
    have hfresh : Here l.fresh.cs l.fresh :=
      ⟨sound_fresh l, rfl, rfl, fun _ hx => absurd hx List.not_mem_nil⟩
    exact (start_reached aftermath hdepth hfresh rfl _ _).endsUnlessAlone
  · intro e hdepth halive
    have hhere : Here (l.run env events).cs (l.run env events) :=
      ⟨sound_run l env events, rfl, rfl, callsBelow_run l env events halive⟩
    rw [l.run_append]
    exact (handle_reached aftermath hdepth hhere halive e.2).endsUnlessAlone

end

namespace Scenario

attribute [local instance] transparent

/-- Validator 1 with `SkipTimeoutCommit`. -/
def skipping (vs : { vs : ValidatorSet // vs.Wf }) : Launch :=
  { launch 1 vs with wiring := wiring 1 true }

/-- The only validator commits one height after the other within `Start`, until the stack
is used up: four heights with a stack of eight own votes. -/
theorem start_never_ends :
    let n := (skipping (validatorSet [(1, 1)] (by decide +kernel))).start { env 1 with depth := 8 }
    n.panicked = some .stackOverflow ∧ n.cs.height = 5 := by
  decide +kernel

/-- Two validators of equal power: neither is a quorum. -/
def pairValidators : { vs : ValidatorSet // vs.Wf } :=
  validatorSet [(1, 1), (2, 1)] (by decide +kernel)

/-- Validator 1 has accepted its own proposal and both prevotes when the precommit of
validator 2 arrives. -/
def pairEvents : List (Env × Event) :=
  [ (env 1, .vote (vote 2 1 .prevote 1 0 (some (block 1 1)))) ]

/-- The precommit of validator 2 commits height 1, and validator 1 does not go on alone. -/
theorem pair_commits_once :
    let e := (env 1, Event.vote (vote 2 1 .precommit 1 0 (some (block 1 1))))
    let n := (skipping pairValidators).run (env 1) pairEvents
    let m := (skipping pairValidators).run (env 1) (pairEvents ++ [e])
    n.panicked = none ∧ n.cs.height = 1 ∧ m.cs.height = 2 ∧
      ¬ m.LeftAlone e.1.applyBlock n.cs.height ∧ Ends n.cs m := by
  intro e n m
  have halive : n.panicked = none := by decide +kernel
  have hweak : (m.calls.all fun x => ({ x.1 with
      validatorSet := x.1.validatorSet.withIncrementedPriority 1 } :
        ConsensusState).ownValidator.all fun own => own.2.votingPower <
          (x.1.validatorSet.withIncrementedPriority 1).twoThirdsMajority) = true := by
    decide +kernel
  have hapart : ¬ m.LeftAlone e.1.applyBlock n.cs.height := by
    rintro ⟨x, hx, -, -, updates, newSet, happly, hset, -, index, val, hown, hstrong⟩
    cases happly
    cases hset
    have hx' := List.all_eq_true.mp hweak x hx
    rw [hown] at hx'
    exact absurd hstrong (not_le.mpr (of_decide_eq_true hx'))
  exact ⟨halive, by decide +kernel, by decide +kernel, hapart,
    ((event_ends (skipping pairValidators) (env 1) pairEvents).2 e (by decide) halive).1 hapart⟩

end Scenario

end Leaderberry
