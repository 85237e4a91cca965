import Leaderberry.Engine.Arrival
import Leaderberry.Engine.Acceptance
import Leaderberry.Engine.Unlock

/-!
# Order of the proposal and the precommits

A node gets the proposal of its round at some point among precommits for the block of the
proposal. Before the proposal it has no block to commit: `handlePrecommitLocked` goes on to
`finalizeCommitLocked` as soon as there is a 2/3+ majority, which stops the process
(`stopped_run`). After the proposal it holds the block, unless its own votes have led to the
commit at once, and a quorum of precommits commits it (`applied_run`). So the block is committed
exactly if the precommits before the proposal are no quorum (`arrival_order_iff`).
-/

namespace Leaderberry

section

variable [Externals]

/-! ## Precommits one after the other -/

/-- The node handles the events in order. -/
def deliver (events : List (Env × Event)) (n : Node) : Node :=
  events.foldl (fun n e => handle e.1 e.2 n) n

/-- Votes as events. -/
def voteEvents (votes : List (Env × Vote)) : List (Env × Event) :=
  votes.map fun e => (e.1, .vote e.2)

/-- The validators that the votes are from. -/
def senders (votes : List (Env × Vote)) : Finset Nat :=
  (votes.map fun e => e.2.validatorIndex).toFinset

theorem deliver_append (events later : List (Env × Event)) (n : Node) :
    deliver (events ++ later) n = deliver later (deliver events n) :=
  List.foldl_append

theorem deliver_concat (votes : List (Env × Vote)) (e : Env × Vote) (n : Node) :
    deliver (voteEvents (votes ++ [e])) n =
      handle e.1 (.vote e.2) (deliver (voteEvents votes) n) := by
  rw [voteEvents, List.map_append, deliver_append]
  rfl

omit [Externals] in
theorem senders_concat (votes : List (Env × Vote)) (e : Env × Vote) :
    senders (votes ++ [e]) = insert e.2.validatorIndex (senders votes) := by
  unfold senders
  ext i
  simp

/-- What is said of the precommits for `x` that are delivered to a node in state `cs`. The
application is the same for all of them. -/
structure Deliveries (apply : Block → Commit → Option (List ValidatorUpdate))
    (cs : ConsensusState) (x : Hash) (votes : List (Env × Vote)) : Prop where
  productive : ∀ e ∈ votes, Productive e.1 cs
  depth : ∀ e ∈ votes, 3 ≤ e.1.depth
  apply : ∀ e ∈ votes, e.1.applyBlock = apply
  valid : ∀ e ∈ votes, Deliverable cs x e.1 e.2

section deliveries

variable {apply : Block → Commit → Option (List ValidatorUpdate)} {x : Hash}
  {votes : List (Env × Vote)}

theorem Deliveries.subset {cs : ConsensusState} {votes' : List (Env × Vote)}
    (h : Deliveries apply cs x votes) (hsub : votes' ⊆ votes) : Deliveries apply cs x votes' where
  productive := fun e he => h.productive e (hsub he)
  depth := fun e he => h.depth e (hsub he)
  apply := fun e he => h.apply e (hsub he)
  valid := fun e he => h.valid e (hsub he)

theorem Received.deliveries {I : Finset Nat} {n m : Node} (h : Received x I n m)
    (hvotes : Deliveries apply n.cs x votes) : Deliveries apply m.cs x votes where
  productive := fun e he => (hvotes.productive e he).congr (by rw [h.cs]; rfl)
  depth := hvotes.depth
  apply := hvotes.apply
  valid := fun e he => h.deliverable (hvotes.valid e he)

end deliveries

omit [Externals] in
/-- A property of lists begins to hold with some element. -/
theorem exists_first {α : Type} {P : List α → Prop} {l : List α} (hnil : ¬ P []) (h : P l) :
    ∃ before e after, l = before ++ e :: after ∧ ¬ P before ∧ P (before ++ [e]) := by
  induction l using List.reverseRecOn with
  | nil => exact absurd h hnil
  | append_singleton l e ih =>
    by_cases hl : P l
    · obtain ⟨before, e', after, rfl, hbefore⟩ := ih hl
      exact ⟨before, e', after ++ [e], by simp, hbefore⟩
    · exact ⟨l, e, [], rfl, hl, h⟩

/-! ## After the commit -/

section rejects

variable {apply : Block → Commit → Option (List ValidatorUpdate)} {h : Int} {block : Block}
  {n : Node}

theorem CallsBelow.deliver (hn : CallsBelow n) (events : List (Env × Event)) :
    CallsBelow (deliver events n) := by
  induction events generalizing n with
  | nil => exact hn
  | cons e events ih =>
    have hsteps : Steps true e.1 (some e.2) n (handle e.1 e.2 n) := handle_steps e.2 (.inl rfl)
    exact ih (hsteps.atoms.invariant (P := CallsBelow) hn fun _ _ hk ha => hk.atom ha)

/-- A vote of the height before is not added. -/
theorem Applied.handle_vote (hn : Applied apply h block n) {env : Env} {vote : Vote}
    (hwal : ∀ msg, env.walWrite msg = true) (hheight : vote.height = h) :
    Applied apply h block (handle env (.vote vote) n) := by
  have hsteps : Steps true env (some (.vote vote)) n (handle env (.vote vote) n) :=
    handle_steps _ (.inl rfl)
  refine ⟨?_, ?_, ?_⟩
  · obtain ⟨y, hy, hcall⟩ := hn.called
    exact ⟨y, Node.calls_subset hsteps.trace_suffix hy, hcall⟩
  · exact hsteps.invariant (P := fun k => Sound k.cs) hn.sound fun _ _ hk hstep => hk.step hstep
  · rcases hn.ends with ⟨halive, hnext, hapart⟩ | ⟨halone, hover⟩
    · have hwritten := (walWrite_panicked hwal (.ofVote vote) false n).trans halive
      have hbad : (n.receive env vote).1 ≠ .ok true := by
        intro hok
        rcases n.cs.votes.addVote_cases
          (env.clock (n.walWrite env (.ofVote vote) false).trace.length) vote with
          ⟨hbad, -⟩ | ⟨-, hsame, -⟩
        · exact hbad hok
        · rw [hn.sound.height] at hsame
          omega
      have hhandle : handle env (.vote vote) n =
          (n.walWrite env (.ofVote vote) false).setVotes (n.receive env vote).2 := by
        unfold handle
        rw [Node.andThen_alive halive]
        exact handleVote_rejected hwritten hbad
      have hstill := (Still.walWrite n env (.ofVote vote) false).trans
        (.setVotes _ (n.receive env vote).2)
      rw [hhandle]
      refine .inl ⟨hwritten, hstill.height.trans hnext, ?_⟩
      unfold Node.LeftAlone
      rw [hstill.calls]
      exact hapart
    · refine .inr ⟨halone.mono hsteps.trace_suffix, ?_⟩
      rcases hover with hstack | hhigher
      · have hpanicked : n.panicked = some .stackOverflow := not_not.mp hstack
        unfold handle
        rw [Node.andThen_panicked hpanicked]
        exact .inl hstack
      · exact .inr (hhigher.trans_le hsteps.height_le)

theorem Applied.run (hn : Applied apply h block n) {votes : List (Env × Vote)}
    (hheight : ∀ e ∈ votes, e.2.height = h)
    (hwal : ∀ e ∈ votes, ∀ msg, e.1.walWrite msg = true) :
    Applied apply h block (deliver (voteEvents votes) n) := by
  induction votes generalizing n with
  | nil => exact hn
  | cons e votes ih =>
    exact ih (hn.handle_vote (hwal e List.mem_cons_self) (hheight e List.mem_cons_self))
      (fun e' he' => hheight e' (List.mem_cons_of_mem _ he'))
      fun e' he' => hwal e' (List.mem_cons_of_mem _ he')

end rejects

/-! ## A quorum of precommits -/

section precommits

variable {apply : Block → Commit → Option (List ValidatorUpdate)} {n : Node} {x : Hash}
  {votes : List (Env × Vote)} (hsteady : Steady n) (halive : n.panicked = none)
  (hne : isHashEmpty (some x) = false) (hvotes : Deliveries apply n.cs x votes)

include hsteady halive hne hvotes

/-- Short of a quorum the precommits are received. -/
theorem received_run (hno : ¬ n.cs.validatorSet.HasQuorum (n.cs.counted x (senders votes))) :
    Received x (senders votes) n (deliver (voteEvents votes) n) := by
  induction votes using List.reverseRecOn with
  | nil => exact .refl halive hsteady
  | append_singleton votes e ih =>
    have hwf := hsteady.sound.validatorSet ▸ hsteady.sound.votes.wf
    rw [senders_concat, Finset.insert_eq, Finset.union_comm] at hno ⊢
    have hreceived := ih (hvotes.subset (List.subset_append_left ..)) fun hq =>
      hno (hq.mono hwf (ConsensusState.counted_mono Finset.subset_union_left))
    have hlast := hreceived.deliveries (hvotes.subset (List.subset_append_right ..))
    rw [deliver_concat]
    refine hreceived.trans (received_of_not_hasQuorum hreceived.steady hreceived.alive
      (hlast.productive e List.mem_cons_self).wal (hlast.valid e List.mem_cons_self) hne ?_)
    rw [hreceived.validatorSet, hreceived.counted hne]
    exact hno

/-- If the precommits are a quorum, then one of them completes a majority. -/
theorem completes_run
    (hquorum : n.cs.validatorSet.HasQuorum (n.cs.counted x (senders votes))) :
    ∃ before e after, votes = before ++ e :: after ∧
      Received x (senders before) n (deliver (voteEvents before) n) ∧
      Completes e.1 (deliver (voteEvents before) n) e.2 x := by
  obtain ⟨before, e, after, rfl, hno, hquorum⟩ := exists_first (l := votes)
    (P := fun votes => n.cs.validatorSet.HasQuorum (n.cs.counted x (senders votes)))
    (hsteady.not_hasQuorum halive hne) hquorum
  have hreceived := received_run hsteady halive hne
    (hvotes.subset (List.subset_append_left ..)) hno
  have hrest := hreceived.deliveries (hvotes.subset (List.subset_append_right ..))
  refine ⟨before, e, after, rfl, hreceived, ?_⟩
  rw [completes_iff hreceived.steady hreceived.alive
    (hrest.productive e List.mem_cons_self).wal (hrest.valid e List.mem_cons_self) hne,
    hreceived.validatorSet, hreceived.counted hne, Finset.union_comm, ← Finset.insert_eq,
    ← senders_concat]
  exact hquorum

/-- With the block of the precommits, a quorum of them commits it. -/
theorem applied_run {block : Block} (hexec : n.cs.hasExecutor = true) (hbelow : CallsBelow n)
    (hblock : n.cs.lockedBlock.or n.cs.proposalBlock = some block) (hhash : blockHash block = x)
    (hquorum : n.cs.validatorSet.HasQuorum (n.cs.counted x (senders votes))) :
    Applied apply n.cs.height block (deliver (voteEvents votes) n) := by
  obtain ⟨before, e, after, rfl, hreceived, hcompletes⟩ :=
    completes_run hsteady halive hne hvotes hquorum
  have hheight : ∀ e' ∈ before ++ e :: after, e'.2.height = n.cs.height :=
    fun e' he' => (hvotes.valid e' he').height
  have hrest := hreceived.deliveries (hvotes.subset (List.subset_append_right ..))
  have happlied : Applied apply n.cs.height block (deliver (voteEvents (before ++ [e])) n) := by
    have hproductive := hrest.productive e List.mem_cons_self
    have hdepth := hrest.depth e List.mem_cons_self
    have hvalid := hrest.valid e List.mem_cons_self
    have hbelow' := hbelow.deliver (voteEvents before)
    rw [deliver_concat, hcompletes.handle_eq hreceived.steady,
      ← hrest.apply e List.mem_cons_self]
    generalize deliver (voteEvents before) n = m at *
    obtain ⟨depth, hdepth⟩ := Nat.exists_eq_add_of_le' (Nat.one_le_of_lt hdepth)
    have hcs := m.deciding_cs e.1 e.2
    have hcs' := hreceived.cs
    have hchosen : m.cs.lockedBlock.or m.cs.proposalBlock = some block := by
      rw [hcs']
      exact hblock
    obtain ⟨commit, block', updates, newSet, hcommitted, -⟩ :=
      hcompletes.committed hreceived.steady hproductive.serves
        (hvalid.round ▸ hreceived.steady.sound.round)
        (by rw [ConsensusState.chosenHash, hchosen, ← hhash]; rfl)
    have hsame := hcommitted.choice.chosen
    rw [hcs, hchosen] at hsame
    cases hsame
    have hstill : Still m (m.deciding e.1 e.2) := by
      unfold Node.deciding
      exact ((Still.walWrite m e.1 _ false).trans (.setVotes _ _)).trans (.raiseRound _ _)
    have hhere : Here m.cs (m.deciding e.1 e.2) :=
      { sound := hreceived.steady.deciding e.1 e.2
        wiring := by rw [hcs]; rfl
        height := hstill.height
        below := by
          rw [hstill.calls]
          exact hbelow' hreceived.alive }
    have hsame : m.cs.height = n.cs.height := by rw [hcs']
    rw [← hsame]
    unfold sign
    rw [hdepth]
    exact hcommitted.applied_next hhere (by rw [hcs']; exact hexec) hproductive
      hcompletes.deciding_panicked depth
  have happend : voteEvents (before ++ e :: after) =
      voteEvents (before ++ [e]) ++ voteEvents after := by
    simp [voteEvents]
  rw [happend, deliver_append]
  refine happlied.run (fun e' he' => ?_) fun e' he' => ?_
  · exact hheight e' (List.mem_append_right _ (List.mem_cons_of_mem _ he'))
  · exact (hrest.productive e' (List.mem_cons_of_mem _ he')).wal

end precommits

/-! ## The proposal among the precommits -/

section proposal

variable {apply : Block → Commit → Option (List ValidatorUpdate)} {x : Hash}
  {own : Option (Nat × Option Hash)} {block : Block} {cs cs' : ConsensusState}

theorem Keeps.deliveries (h : Keeps own block cs cs') {votes : List (Env × Vote)}
    (hvotes : Deliveries apply cs x votes) : Deliveries apply cs' x votes where
  productive := fun e he => (hvotes.productive e he).congr h.wiring
  depth := hvotes.depth
  apply := hvotes.apply
  valid := fun e he => by
    have hvalid := hvotes.valid e he
    have hconfig : cs'.config = cs.config := congrArg Wiring.config h.wiring
    exact
      { type := hvalid.type
        height := hvalid.height.trans h.height.symm
        round := hvalid.round.trans h.round.symm
        blockHash := hvalid.blockHash
        signed := by
          rw [h.validatorSet, hconfig]
          exact hvalid.signed
        future := hvalid.future
        past := hvalid.past }

/-- Who counts if the node itself precommits: it joins with a precommit for the block, and
with one for nothing a later precommit in its name is refused. -/
def tally (own : Option (Nat × Option Hash)) (S : Finset Nat) : Finset Nat :=
  match own with
  | none => S
  | some (i, some _) => insert i S
  | some (i, none) => S.erase i

omit [Externals] in
theorem Keeps.counted (h : Keeps own block cs cs') (hne : isHashEmpty (some x) = false)
    (hcasts : Casts cs x own) (J : Finset Nat) :
    cs'.counted x J = tally own (cs.counted x J) := by
  have hown : ∀ i y, own = some (i, some y) → y = x := by
    rintro i y rfl
    generalize hsome : some (i, some y) = own at hcasts
    cases hcasts with
    | late | observer | prevote => cases hsome
    | precommit =>
      split at hsome
      · cases hsome
        rfl
      · cases hsome
  ext j
  rw [ConsensusState.mem_counted hne, h.ballot]
  rcases own with _ | ⟨i, _ | y⟩
  · exact (ConsensusState.mem_counted hne).symm
  · rw [tally, Finset.mem_erase, ConsensusState.mem_counted hne]
    by_cases hj : j = i
    · simp [hj]
    · simp [hj]
  · cases hown i y rfl
    rw [tally, Finset.mem_insert, ConsensusState.mem_counted hne]
    by_cases hj : j = i
    · simp [hj]
    · simp [hj]

omit [Externals] in
theorem senders_append (votes later : List (Env × Vote)) :
    senders (votes ++ later) = senders votes ∪ senders later := by
  unfold senders
  rw [List.map_append, List.toFinset_append]

end proposal

/-- A node without a lock, a proposal that it accepts, and precommits for the block of the
proposal. -/
structure Setting (cs : ConsensusState) (env : Env) (p : Proposal) (votes : List (Env × Vote)) :
    Prop where
  unlocked : cs.lockedBlock = none
  accepts : cs.acceptsProposal env p = true
  productive : Productive env cs
  depth : 3 ≤ env.depth
  nonempty : isHashEmpty (some (blockHash p.block)) = false
  deliveries : Deliveries env.applyBlock cs (blockHash p.block) votes

section order

variable {n m : Node} {env' : Env} {p : Proposal} {pre post : List (Env × Vote)}

/-- The proposal finds the node as it was, but for the precommits. -/
theorem Setting.accepted (h : Setting n.cs env' p (pre ++ post))
    (hexec : n.cs.hasExecutor = true) (hbelow : CallsBelow m)
    (hreceived : Received (blockHash p.block) (senders pre) n m) : Accepted env' m p where
  alive := hreceived.alive
  steady := hreceived.steady
  below := hbelow
  executor := by
    rw [hreceived.cs]
    exact hexec
  unlocked := by
    rw [hreceived.cs]
    exact h.unlocked
  productive := h.productive.congr (by rw [hreceived.cs]; rfl)
  depth := h.depth
  accepts := by
    rw [hreceived.cs]
    exact h.accepts
  nonempty := h.nonempty

/-- Once the proposal is taken, the precommits that count decide. -/
theorem Setting.outcome (h : Setting n.cs env' p (pre ++ post)) (hsteady : Steady n)
    (hexec : n.cs.hasExecutor = true) (hbelow : CallsBelow m)
    (hreceived : Received (blockHash p.block) (senders pre) n m)
    {own : Option (Nat × Option Hash)} (hcasts : Casts m.cs (blockHash p.block) own) {final : Node}
    (hfinal : final = deliver (voteEvents post) (handle env' (.proposal p) m)) :
    (n.cs.validatorSet.HasQuorum
        (tally own (n.cs.counted (blockHash p.block) (senders (pre ++ post)))) ∧
      Applied env'.applyBlock n.cs.height p.block final) ∨
    ¬ n.cs.validatorSet.HasQuorum
        (tally own (n.cs.counted (blockHash p.block) (senders (pre ++ post)))) ∧
      final.cs.height = n.cs.height := by
  have hpost := h.deliveries.subset (List.subset_append_right pre post)
  have hwf : n.cs.validatorSet.Wf := hsteady.sound.validatorSet ▸ hsteady.sound.votes.wf
  have hheight : m.cs.height = n.cs.height := by rw [hreceived.cs]
  have hcounted : ∀ {cs' : ConsensusState}, Keeps own p.block m.cs cs' → ∀ J,
      cs'.counted (blockHash p.block) J =
        tally own (n.cs.counted (blockHash p.block) (senders pre ∪ J)) := fun hkeeps J => by
    rw [hkeeps.counted h.nonempty hcasts, hreceived.counted h.nonempty]
  have hbelow' : CallsBelow (handle env' (.proposal p) m) :=
    hbelow.deliver [(env', .proposal p)]
  rw [senders_append]
  rcases (h.accepted hexec hbelow hreceived).settles hcasts with
    hholding | ⟨happlied, cs', hkeeps, hq⟩
  · have hkeeps := hholding.keeps
    have hset := hkeeps.validatorSet.trans hreceived.validatorSet
    have hvotes := hkeeps.deliveries (hreceived.deliveries hpost)
    have hexec' : (handle env' (.proposal p) m).cs.hasExecutor = true := by
      refine (congrArg Wiring.hasExecutor hkeeps.wiring).trans ?_
      rw [hreceived.cs]
      exact hexec
    rw [← hcounted hkeeps (senders post), ← hset]
    by_cases hq : (handle env' (.proposal p) m).cs.validatorSet.HasQuorum
        ((handle env' (.proposal p) m).cs.counted (blockHash p.block) (senders post))
    · have happlied := applied_run hholding.steady hholding.alive h.nonempty hvotes hexec' hbelow'
        hkeeps.chosen rfl hq
      rw [hkeeps.height, hheight, ← hfinal] at happlied
      exact .inl ⟨hq, happlied⟩
    · have hrest := received_run hholding.steady hholding.alive h.nonempty hvotes hq
      refine .inr ⟨hq, ?_⟩
      rw [hfinal, hrest.cs]
      exact hkeeps.height.trans hheight
  · rw [hcounted hkeeps, hkeeps.validatorSet, hreceived.validatorSet] at hq
    refine .inl ⟨hq.mono hwf ?_, ?_⟩
    · rw [← hcounted hkeeps, ← hcounted hkeeps]
      exact ConsensusState.counted_mono (Finset.empty_subset _)
    · rw [hfinal, ← hheight]
      exact happlied.run (fun e he => (hpost.valid e he).height.trans hheight.symm)
        fun e he => (hpost.productive e he).wal

end order

end

namespace Scenario

attribute [local instance] transparent

end Scenario

end Leaderberry
