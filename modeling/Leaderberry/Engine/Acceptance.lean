import Leaderberry.Engine.Ending

/-!
# What accepting a proposal leads to

A node that accepts a proposal prevotes if it has not yet done so in the round. Its prevote
may complete a majority, then it precommits, and its precommit may complete a majority too.
So in one call it may commit the block it has just received. Otherwise it keeps the block
and the precommits it had (`Keeps`). An own vote that is refused stops the process.

- `Casts`: the precommit of the node on the spot, read off its state before.
- `Accepted.settles`: with it, the node rests with the block or has applied it.
- `Accepted.refuses`: without, the process stops.
-/

namespace Leaderberry

section

variable [Externals] {block : Block} {cs : ConsensusState} {n : Node}

/-! ## The votes that follow -/

/-- What a node without a lock precommits on the spot when it accepts a block with hash `x`:
its index and its vote, if any. Nothing fits if a vote of its own is refused, because there is
one of this validator already. -/
inductive Casts (cs : ConsensusState) (x : Hash) : Option (Nat × Option Hash) → Prop
  | late (hstep : ¬ cs.step < .prevote) : Casts cs x none
  | observer (hown : cs.ownValidator = none) : Casts cs x none
  | prevote {i : Nat} {val : NamedValidator} (hown : cs.ownValidator = some (i, val))
      (hfresh : cs.votes.voteOf .prevote cs.round i = none)
      (hno : ∀ hash, ¬ PrevoteQuorum cs x i hash) : Casts cs x none
  | precommit {i : Nat} {val : NamedValidator} {hash : Option Hash} (hstep : cs.step < .prevote)
      (hown : cs.ownValidator = some (i, val))
      (hfresh : cs.votes.voteOf .prevote cs.round i = none) (hballot : cs.ballot i = none)
      (hquorum : PrevoteQuorum cs x i hash) :
      Casts cs x (some (i, if blockHashKey hash = blockHashKey (some x) then some x else none))

/-! ## Where the node gets -/

/-- The block was applied at height `h`. The node is at the next height, or it was left alone
there and does not rest. -/
structure Applied (apply : Block → Commit → Option (List ValidatorUpdate)) (h : Int)
    (block : Block) (n : Node) : Prop where
  called : ∃ x ∈ n.calls, x.1.height = h ∧ x.2.1 = block
  sound : Sound n.cs
  ends : n.panicked = none ∧ n.cs.height = h + 1 ∧ ¬ n.LeftAlone apply h ∨
    n.LeftAlone apply h ∧ Overruns (h + 1) n

/-- The node rests with the block, or has applied it after its precommit completed a quorum. -/
def Settles (apply : Block → Commit → Option (List ValidatorUpdate))
    (own : Option (Nat × Option Hash)) (block : Block) (cs : ConsensusState) (n : Node) : Prop :=
  Holding own block cs n ∨ Applied apply cs.height block n ∧ ∃ cs', Keeps own block cs cs' ∧
    cs'.validatorSet.HasQuorum (cs'.counted (blockHash block) ∅)

theorem Applied.emit {apply : Block → Commit → Option (List ValidatorUpdate)} {h : Int}
    (hn : Applied apply h block n) (v : Vote) :
    Applied apply h block (n.emit (.broadcastVote v)) := by
  have hcalls := (Still.emit n (a := .broadcastVote v) rfl).calls
  have halone : (n.emit (.broadcastVote v)).LeftAlone apply h ↔ n.LeftAlone apply h := by
    unfold Node.LeftAlone
    rw [hcalls]
  refine ⟨by rw [hcalls]; exact hn.called, hn.sound, ?_⟩
  rw [halone]
  exact hn.ends

theorem Settles.emit {apply : Block → Commit → Option (List ValidatorUpdate)}
    {own : Option (Nat × Option Hash)} (h : Settles apply own block cs n) (v : Vote) :
    Settles apply own block cs (n.emit (.broadcastVote v)) := by
  rcases h with h | ⟨h, hquorum⟩
  · exact .inl ⟨h.alive, h.steady.emit _, h.keeps⟩
  · exact .inr ⟨h.emit v, hquorum⟩

/-- A commit in an environment that works. -/
theorem Committed.applied_next {env : Env} {commit : Commit} {updates : List ValidatorUpdate}
    {newSet : ValidatorSet} (hc : Committed n env commit block updates newSet (n.startCommit env))
    (hn : Here cs n) (hexec : cs.hasExecutor = true) (hproductive : Productive env cs)
    (halive : n.panicked = none) (depth : Nat) :
    Applied env.applyBlock cs.height block
      (n.commitOn env (signAndSendVoteLocked env (depth + 1))) := by
  generalize hk : n.commitOn env _ = k
  have hsteps : Steps true env none (n.startCommit env) k :=
    hk ▸ commitOn_steps (signSteps (depth + 1)) halive
  have hexec' : n.cs.hasExecutor = true := (congrArg Wiring.hasExecutor hn.wiring).trans hexec
  have hcalled : ((n.setStep .commit).cs, block, commit) ∈ (n.startCommit env).calls := by
    rw [hc.calls hexec']
    exact List.mem_cons_self
  refine ⟨⟨_, Node.calls_subset hsteps.trace_suffix hcalled, hn.height, rfl⟩, ?_, ?_⟩
  · exact hsteps.invariant (P := fun k => Sound k.cs) (Steady.committed hn.sound halive hc).sound
      fun _ _ hk hstep => hk.step hstep
  · rcases hc.next hn halive depth hk.symm with ⟨hconcludes, hheight, halive'⟩ | hruns
    · exact .inl ⟨halive' hproductive.toWorks, hheight, hconcludes.apart hproductive⟩
    · exact .inr ⟨hruns.alone, hruns.overruns hproductive⟩

/-! ## The proposal -/

section proposal

variable {env : Env} {n : Node} {p : Proposal}

/-- A node without a lock, and a proposal that it accepts. -/
structure Accepted (env : Env) (n : Node) (p : Proposal) : Prop where
  alive : n.panicked = none
  steady : Steady n
  below : CallsBelow n
  executor : n.cs.hasExecutor = true
  unlocked : n.cs.lockedBlock = none
  productive : Productive env n.cs
  depth : 3 ≤ env.depth
  accepts : n.cs.acceptsProposal env p = true
  nonempty : isHashEmpty (some (blockHash p.block)) = false

/-- The proposal is taken, and the node prevotes if it has not yet done so. -/
theorem Accepted.handle_eq (h : Accepted env n p) : ∃ k, Ready p.block n.cs k ∧
    (¬ n.cs.step < .prevote ∧ handle env (.proposal p) n = k ∨
      n.cs.step < .prevote ∧
        k.cs = { n.cs with step := .prevote, proposal := some p, proposalBlock := some p.block } ∧
        handle env (.proposal p) n =
          signAndSendVoteLocked env env.depth .prevote (some (blockHash p.block)) k) := by
  have hwritten := (walWrite_panicked h.productive.wal (.ofProposal p) true n).trans h.alive
  have hstill := (Still.walWrite n env (.ofProposal p) true).trans (.takeProposal _ p false)
  unfold handle
  rw [Node.andThen_alive h.alive]
  dsimp only
  unfold handleProposal
  rw [if_pos h.accepts, Node.andThen_alive hwritten]
  dsimp only
  have htaken := (h.steady.walWrite env (.ofProposal p) true).takeProposal p false
  have hcs : (((n.walWrite env (.ofProposal p) true).takeProposal p false)).cs =
      { n.cs with proposal := some p, proposalBlock := some p.block } := by
    rw [Node.takeProposal_cs, Node.walWrite_cs]
  have halive : ((n.walWrite env (.ofProposal p) true).takeProposal p false).panicked = none := by
    simpa using hwritten
  generalize (n.walWrite env (.ofProposal p) true).takeProposal p false = m at *
  have hready : Ready p.block n.cs m := by
    have hhere : Here n.cs n :=
      ⟨h.steady.sound, rfl, rfl, h.below h.alive⟩
    refine ⟨⟨halive, htaken, ?_⟩, hhere.still hstill (by rw [hcs]; exact .single .proposal)⟩
    rw [hcs]
    exact ⟨rfl, rfl, rfl, rfl, rfl, .inl h.unlocked, rfl⟩
  have hunlocked : m.cs.lockedBlock = none := by
    rw [hcs]
    exact h.unlocked
  have hstep : m.cs.step = n.cs.step := by rw [hcs]
  unfold enterPrevoteLocked
  split
  · rename_i hguard
    refine ⟨m, hready, .inl ⟨fun hlt => ?_, rfl⟩⟩
    simp only [ne_eq, not_true_eq_false, false_or] at hguard
    rw [hstep] at hguard
    exact absurd hlt (not_lt.mpr hguard)
  · rename_i hguard
    simp only [not_or, not_le, hstep] at hguard
    have hstart := startPrevote_unlocked hunlocked
    have hkept := hready.keeps
    refine ⟨m.setStep .prevote, ⟨⟨halive, hstart ▸ htaken.startPrevote, { hkept with }⟩,
      hready.here.still (.setStep m _) (.single .step)⟩, .inr ⟨hguard.2.2, ?_, ?_⟩⟩
    · rw [Node.setStep, hcs]
    · rw [hstart, decidePrevote_unlocked hunlocked hready.keeps.proposalBlock]
      rfl

/-- The node votes, and rests with the block or has applied it. -/
theorem Accepted.settles (h : Accepted env n p) {own : Option (Nat × Option Hash)}
    (hcasts : Casts n.cs (blockHash p.block) own) :
    Settles env.applyBlock own p.block n.cs (handle env (.proposal p) n) := by
  obtain ⟨k, hready, ⟨hlate, heq⟩ | ⟨hearly, hcs, heq⟩⟩ := h.handle_eq
  · rw [heq]
    cases hcasts with
    | late | observer | prevote => exact .inl hready.toHolding
    | precommit hstep => exact absurd hstep hlate
  · obtain ⟨depth, hdepth⟩ := Nat.exists_eq_add_of_le' h.depth
    have hquorums : PrevoteQuorum k.cs (blockHash p.block) =
        PrevoteQuorum n.cs (blockHash p.block) := by
      rw [hcs]
      rfl
    rw [heq, hdepth]
    cases hcasts with
    | late hstep => exact absurd hearly hstep
    | observer hown =>
      refine signAndSendVoteLocked_succ hready.alive (fun _ => ?_) (fun vote m _ hcast => ?_)
        fun k v hk => hk.emit v
      · unfold Node.castOwnVote
        rw [hready.own, hown]
        exact .inl hready.toHolding
      · obtain ⟨val, hown', -⟩ := hcast.own.validator
        rw [hready.own, hown] at hown'
        cases hown'
    | prevote hown hfresh hno =>
      refine hready.prevote_cases h.productive h.nonempty (by rw [hcs]) hown
        (by rw [hcs]; exact hfresh) (fun k v hk => hk.emit v) (fun _ m hm => .inl hm)
        fun hash _ hquorum => ?_
      rw [hquorums] at hquorum
      exact absurd hquorum (hno hash)
    | precommit _ hown hfresh hballot hquorum =>
      rw [← hquorums] at hquorum
      refine hready.prevote_cases h.productive h.nonempty (by rw [hcs]) hown
        (by rw [hcs]; exact hfresh) (fun k v hk => hk.emit v)
        (fun hno => absurd hquorum (hno _)) fun _ m _ hm own hlock hvote => ?_
      rw [← hvote _ hquorum]
      exact hm.precommit_cases h.productive hown hballot hlock (fun k v hk => hk.emit v)
        (fun _ hm => .inl hm) fun m _ _ _ hc halive hhere hkeeps hcounted =>
          .inr ⟨hc.applied_next hhere h.executor h.productive halive depth, m.cs, hkeeps, hcounted⟩

end proposal

end

end Leaderberry
