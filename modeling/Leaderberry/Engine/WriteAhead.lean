import Leaderberry.Engine.Carried
import Leaderberry.Engine.Lock
import Leaderberry.Engine.Scenario

/-!
# Write-ahead discipline

Own messages are synced to the WAL before they leave the node, and a lock before the
precommit for it is signed (`write_ahead`). The order matters here, so this is a property
of the whole trace: `Action.Ahead` says what has to be on disk before an action, and
`WriteAhead` that it is there for every action of a trace.

The micro-steps leave open when a vote is broadcast. The proof goes along the handlers
(`Carried`).
-/

namespace Leaderberry

section

variable [Externals]

/-! ## Write-ahead -/

/-- The record was synced to the WAL. -/
def Synced (trace : List (ConsensusState × Action)) (m : Message) : Prop :=
  ∃ cs, (cs, .walWrite m true) ∈ trace

/-- What has to be on disk before an action: an own message before it is broadcast, the
lock on a block before the precommit for it is signed. -/
def Action.Ahead (earlier : List (ConsensusState × Action)) : Action → Prop
  | .broadcastVote v => Synced earlier (.ofVote v)
  | .broadcastProposal p => Synced earlier (.ofProposal p)
  | .signVote v => v.type = .precommit → ∀ x, v.blockHash = some x → ∃ s,
      Synced earlier (.ofState s) ∧ s.height = v.height ∧ s.lockedRound = v.round ∧
        s.lockedBlockHash = some x
  | _ => True

/-- Every action of a trace, newest first, came after what has to precede it. -/
def WriteAhead (trace : List (ConsensusState × Action)) : Prop :=
  ∀ later x earlier, trace = later ++ x :: earlier → x.2.Ahead earlier

section traces

omit [Externals]

variable {trace l : List (ConsensusState × Action)} {x : ConsensusState × Action}

theorem WriteAhead.cons (h : WriteAhead trace) (hx : x.2.Ahead trace) :
    WriteAhead (x :: trace) := by
  intro later y earlier heq
  cases later with
  | nil =>
    obtain ⟨rfl, rfl⟩ := List.cons_eq_cons.mp heq
    exact hx
  | cons z later => exact h later y earlier (List.cons_eq_cons.mp heq).2

/-- Actions that nothing has to precede can be added. -/
theorem WriteAhead.append (h : WriteAhead trace) (hl : ∀ x ∈ l, ∀ earlier, x.2.Ahead earlier) :
    WriteAhead (l ++ trace) := by
  induction l with
  | nil => exact h
  | cons x l ih =>
    have hrest := ih fun y hy => hl y (List.mem_cons_of_mem _ hy)
    exact hrest.cons (hl x (List.mem_cons_self ..) _)

theorem Synced.mono {m : Message} {trace' : List (ConsensusState × Action)}
    (h : Synced trace m) (hsuf : trace <:+ trace') : Synced trace' m := by
  obtain ⟨cs, hcs⟩ := h
  exact ⟨cs, hsuf.subset hcs⟩

end traces

/-! ## Every transition keeps the discipline -/

/-- A node with a WAL that has kept the discipline. -/
structure Disciplined (n : Node) : Prop where
  hasWal : n.cs.hasWal = true
  ahead : WriteAhead n.trace

namespace Disciplined

variable {env : Env} {n m : Node}

section

omit [Externals]

theorem append (h : Disciplined n) (hcs : m.cs.hasWal = n.cs.hasWal)
    {l : List (ConsensusState × Action)} (ht : m.trace = l ++ n.trace)
    (hl : ∀ x ∈ l, ∀ earlier, x.2.Ahead earlier) : Disciplined m where
  hasWal := hcs.trans h.hasWal
  ahead := by
    rw [ht]
    exact h.ahead.append hl

theorem emit (h : Disciplined n) {a : Action} (ha : a.Ahead n.trace) : Disciplined (n.emit a) :=
  ⟨h.hasWal, h.ahead.cons ha⟩

theorem walWrite (h : Disciplined n) (env : Env) (msg : Message) (sync : Bool) :
    Disciplined (n.walWrite env msg sync) := by
  unfold Node.walWrite
  split
  · exact h
  · split
    · exact h.emit trivial
    · exact ⟨h.hasWal, h.ahead⟩

/-- A `WriteSync` that returned has synced its record. -/
theorem synced (h : Disciplined n) {msg : Message}
    (halive : (n.walWrite env msg true).panicked = none) :
    Synced (n.walWrite env msg true).trace msg := by
  unfold Node.walWrite at halive ⊢
  rw [h.hasWal] at halive ⊢
  simp only [Bool.not_true, Bool.false_eq_true, if_false] at halive ⊢
  split at halive
  · rename_i hok
    rw [if_pos hok]
    exact ⟨n.cs, List.mem_cons_self ..⟩
  · cases halive

theorem takeProposal (h : Disciplined n) {p : Proposal} {own : Bool}
    (hown : own = true → Synced n.trace (.ofProposal p)) : Disciplined (n.takeProposal p own) := by
  refine ⟨by simpa using h.hasWal, ?_⟩
  rw [Node.takeProposal_trace]
  have haccept : WriteAhead (((n.takeProposal p own).cs, .acceptProposal p) :: n.trace) :=
    h.ahead.cons trivial
  split
  · rename_i hboth
    obtain ⟨rfl, -⟩ := Bool.and_eq_true_iff.mp hboth
    exact haccept.cons ((hown rfl).mono (List.suffix_cons ..))
  · exact haccept

end

theorem startPrevote (h : Disciplined n) : Disciplined n.startPrevote := by
  rcases n.startPrevote_cases with ⟨-, heq⟩ | ⟨-, heq⟩
  · rw [heq]
    exact ⟨h.hasWal, h.ahead⟩
  · rw [heq]
    exact ⟨h.hasWal, h.ahead.cons trivial⟩

/-- The lock on `x` in the current round is on disk. -/
def LockSynced (n : Node) (x : Hash) : Prop :=
  ∃ s, Synced n.trace (.ofState s) ∧ s.height = n.cs.height ∧ s.lockedRound = n.cs.round ∧
    s.lockedBlockHash = some x

/-- Entering Precommit writes a new lock to disk. -/
theorem startPrecommit (h : Disciplined n) (env : Env) :
    Disciplined (n.startPrecommit env).1 ∧ ((n.startPrecommit env).1.panicked = none →
      ∀ x, (n.startPrecommit env).2 = some x → LockSynced (n.startPrecommit env).1 x) := by
  rcases startPrecommit_cases env n with heq | ⟨hash, -, -, heq⟩ | ⟨block, -, -, -, heq⟩
  · rw [heq]
    exact ⟨⟨h.hasWal, h.ahead⟩, fun _ x hx => by cases hx⟩
  · rw [heq]
    exact ⟨⟨h.hasWal, h.ahead.cons trivial⟩, fun _ x hx => by cases hx⟩
  · rw [heq, Node.writeState]
    have hlocked : Disciplined ((n.setStep .precommit).lockOn block) :=
      ⟨h.hasWal, h.ahead.cons trivial⟩
    refine ⟨hlocked.walWrite env _ _, fun halive x hx => ?_⟩
    cases hx
    refine ⟨_, hlocked.synced halive, ?_, ?_, rfl⟩
    · rw [Node.walWrite_cs]
      rfl
    · rw [Node.walWrite_cs]
      rfl

omit [Externals] in
theorem raiseRound (h : Disciplined n) (r : Int) : Disciplined (n.raiseRound r) := by
  unfold Node.raiseRound
  split
  · exact ⟨h.hasWal, h.ahead⟩
  · exact h

theorem startCommit (h : Disciplined n) (env : Env) (halive : n.panicked = none) :
    Disciplined (n.startCommit env) := by
  rcases startCommit_cases env n halive with ⟨commit, block, updates, newSet, hc⟩ | hf
  · rw [hc.eq]
    have hwritten : Disciplined { n.setStep .commit with
        trace := syncEntry (n.setStep .commit).cs (.ofEndHeight n.cs.height) ++
          (applyEntry (n.setStep .commit).cs block commit updates ++ n.trace) } := by
      refine h.append rfl (List.append_assoc ..).symm fun x hx earlier => ?_
      rcases List.mem_append.mp hx with hx | hx
      · rw [mem_syncEntry hx]
        trivial
      · rw [mem_applyEntry hx]
        trivial
    refine ⟨by rw [Node.advanceHeight_cs]; exact h.hasWal, ?_⟩
    unfold Node.advanceHeight
    dsimp only
    split
    · exact hwritten.ahead
    · exact hwritten.ahead.cons trivial
  · refine ⟨?_, ?_⟩
    · rw [hf.cs]
      exact h.hasWal
    · rcases hf.trace with ht | ⟨commit, block, result, -, ht⟩
      · rw [ht]
        exact h.ahead
      · rw [ht]
        exact h.ahead.cons trivial

/-- Casting a vote: a precommit for a block needs the lock on disk. -/
theorem castOwnVote (h : Disciplined n) (env : Env) (halive : n.panicked = none) {t : VoteType}
    {hash : Option Hash} (hlock : t = .precommit → ∀ x, hash = some x → LockSynced n x) :
    Disciplined (n.castOwnVote env t hash).1 ∧ ∀ vote, (n.castOwnVote env t hash).2 = some vote →
      Synced (n.castOwnVote env t hash).1.trace (.ofVote vote) := by
  have hsigned : ∀ v, OwnVote n.cs env t hash v → WriteAhead ((n.cs, .signVote v) :: n.trace) := by
    intro v hown
    refine h.ahead.cons fun htype x hx => ?_
    obtain ⟨s, hs, hheight, hround, hhash⟩ :=
      hlock (hown.type.symm.trans htype) x (hown.blockHash.symm.trans hx)
    exact ⟨s, hs, hheight.trans hown.height.symm, hround.trans hown.round.symm, hhash⟩
  have hlogged : ∀ v, OwnVote n.cs env t hash v →
      WriteAhead (syncEntry n.cs (.ofVote v) ++ (n.cs, .signVote v) :: n.trace) := by
    intro v hown
    refine (hsigned v hown).append fun x hx earlier => ?_
    rw [mem_syncEntry hx]
    trivial
  obtain ⟨votes, hcs⟩ := castOwnVote_frame env t hash halive
  rcases castOwnVote_cases env t hash halive with heq | ⟨v, hcast, hsome⟩ | ⟨v, hfail, hnone⟩
  · rw [heq]
    exact ⟨h, fun vote hvote => by cases hvote⟩
  · refine ⟨⟨by rw [hcs]; exact h.hasWal, ?_⟩, fun vote hvote => ?_⟩
    · rw [hcast.trace]
      exact (hlogged v hcast.own).cons trivial
    · rw [hsome] at hvote
      cases hvote
      refine ⟨n.cs, ?_⟩
      rw [hcast.trace, syncEntry, if_pos h.hasWal]
      exact List.mem_cons_of_mem _ (List.mem_cons_self ..)
  · refine ⟨⟨by rw [hcs]; exact h.hasWal, ?_⟩, fun vote hvote => ?_⟩
    · rcases hfail.trace with ht | ht
      · rw [ht]
        exact hsigned v hfail.own
      · rw [ht]
        exact hlogged v hfail.own
    · rw [hnone] at hvote
      cases hvote

end Disciplined

/-- What nested own votes have to keep. -/
def SignDisciplined (sign : VoteType → Option Hash → Node → Node) : Prop :=
  ∀ t hash (n : Node), n.panicked = none → Disciplined n →
    (t = .precommit → ∀ x, hash = some x → Disciplined.LockSynced n x) →
    Disciplined (sign t hash n)

theorem disciplined_carried (env : Env) {sign : VoteType → Option Hash → Node → Node}
    (hsign : SignDisciplined sign) : Carried env sign Disciplined where
  startRound := fun _ _ hn => ⟨hn.hasWal, hn.ahead.cons trivial⟩
  prevote := fun halive hn => hsign .prevote _ _ (by simpa using halive) hn.startPrevote
    fun ht => by cases ht
  prevoteWait := fun hn => ⟨hn.hasWal, hn.ahead.cons trivial⟩
  precommit := fun _ _ hn => by
    obtain ⟨hstart, hlock⟩ := hn.startPrecommit env
    exact Node.andThen_of hstart fun halive =>
      hsign .precommit _ _ halive hstart fun _ => hlock halive
  precommitWait := fun hn => ⟨hn.hasWal, hn.ahead.cons trivial⟩
  requestBlock := fun _ hn => by
    unfold Node.requestBlock
    split
    · exact hn
    · exact hn.emit trivial
  propose := fun p _ _ hn => by
    have hsigned := hn.emit (a := .signProposal p) trivial
    refine Node.andThen_of (hsigned.walWrite env _ _) fun halive => ?_
    exact (hsigned.walWrite env _ _).takeProposal fun _ => hsigned.synced halive
  commit := fun r halive hn => (hn.raiseRound r).startCommit env (by simpa using halive)
  raiseRound := fun r hn => hn.raiseRound r
  accept := fun p _ _ hn => Node.andThen_of (hn.walWrite env _ _) fun _ =>
    (hn.walWrite env _ _).takeProposal fun hown => by cases hown
  writeVote := fun _ _ hn => hn.walWrite env _ _
  setVotes := fun _ hn => ⟨hn.hasWal, hn.ahead⟩

/-- The recursion, by induction on the stack. A vote that is broadcast after nested
transitions was synced before them. -/
theorem signDisciplined (env : Env) (depth : Nat) :
    SignDisciplined (signAndSendVoteLocked env depth) := by
  induction depth with
  | zero =>
    intro t hash n halive hn hlock
    obtain ⟨hcast, -⟩ := hn.castOwnVote env halive hlock
    refine signAndSendVoteLocked_zero (fun _ => hcast) fun vote m heq => ?_
    rw [heq] at hcast
    exact ⟨hcast.hasWal, hcast.ahead⟩
  | succ depth ih =>
    intro t hash n halive hn hlock
    obtain ⟨hcast, hsynced⟩ := hn.castOwnVote env halive hlock
    unfold signAndSendVoteLocked
    split
    · rename_i m heq
      rw [heq] at hcast
      exact hcast
    · rename_i m vote heq
      have hmalive := castOwnVote_alive heq halive
      rw [heq] at hcast hsynced
      have hhandled := (disciplined_carried env ih).handleAddedVote hmalive hcast vote
      have hsteps : Steps true env none m
          (handleAddedVote env (signAndSendVoteLocked env depth) vote m) :=
        handleAddedVote_steps (signSteps depth) hmalive vote
      refine Node.andThen_of hhandled fun _ => ?_
      dsimp only
      split
      · exact hhandled.emit ((hsynced vote rfl).mono hsteps.trace_suffix)
      · exact hhandled

/-- **Write-ahead discipline.** In every run of a node with a WAL, every own proposal and
vote was synced before it was broadcast, and before a precommit for a block was signed a
State record with the lock on that block in that round was synced. -/
theorem write_ahead (l : Launch) (hwal : l.wiring.hasWal = true) (env : Env)
    (events : List (Env × Event)) : WriteAhead (l.run env events).trace := by
  have hfresh : Disciplined l.fresh := by
    refine ⟨hwal, fun later x earlier heq => ?_⟩
    cases later <;> cases heq
  have hcarried : ∀ env, Carried env (sign env) Disciplined :=
    fun env => disciplined_carried env (signDisciplined env env.depth)
  exact (Carried.run hcarried hfresh env events).ahead

end

section runs

attribute [local instance] transparent

/-- Validator 1 has nine tenths of the power: it proposes, locks on its block, precommits
and commits while it handles its own prevote. -/
theorem write_ahead_nested :
    let n := Scenario.run 1 (Scenario.validatorSet [(1, 9), (2, 1)] (by decide +kernel)) []
    (∃ x ∈ n.trace, x.2 = .broadcastVote (Scenario.vote 1 0 .prevote 1 0 (Scenario.block 1 1))) ∧
    (∃ x ∈ n.trace, x.2 = .signVote (Scenario.vote 1 0 .precommit 1 0 (Scenario.block 1 1))) ∧
    WriteAhead n.trace := by
  refine ⟨by decide +kernel, by decide +kernel, ?_⟩
  exact write_ahead (Scenario.launch 1 _) rfl (Scenario.env 1) []

end runs

end Leaderberry
