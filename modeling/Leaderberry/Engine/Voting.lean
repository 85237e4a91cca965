import Leaderberry.Engine.Micro

/-!
# How a node votes

The votes a node signed (`Node.signs`) and the votes it cast into its own vote set
(`Node.casts`), each with the state at that moment, newest first. A vote is cast
by exactly two micro-steps, entering Prevote and entering Precommit; `VoteStart`
says what the node did just before, and `MicroStep.voting` that a micro-step either
leaves both lists alone or extends them by the one vote `VoteStart` decided on.

`Atom` cuts micro-steps into their building blocks. An invariant that also has to
hold at the moment a vote is signed is proved per atom: both the state about to
vote and the state after the micro-step are reached by atoms.
-/

namespace Leaderberry

namespace Node

variable {n : Node} {cs : ConsensusState}

/-- The votes signed so far, with the state they were signed in. -/
def signs (n : Node) : List (ConsensusState × Vote) :=
  n.trace.filterMap fun x =>
    match x.2 with
    | .signVote v => some (x.1, v)
    | _ => none

/-- The votes cast so far, with the state that holds them. -/
def casts (n : Node) : List (ConsensusState × Vote) :=
  n.trace.filterMap fun x =>
    match x.2 with
    | .castVote v => some (x.1, v)
    | _ => none

theorem mem_signs {v : Vote} :
    (cs, v) ∈ n.signs ↔ (cs, .signVote v) ∈ n.trace := by
  unfold signs
  rw [List.mem_filterMap]
  constructor
  · rintro ⟨⟨cs', a⟩, hmem, heq⟩
    cases a <;> cases heq
    exact hmem
  · intro h
    exact ⟨_, h, rfl⟩

theorem mem_casts {v : Vote} :
    (cs, v) ∈ n.casts ↔ (cs, .castVote v) ∈ n.trace := by
  unfold casts
  rw [List.mem_filterMap]
  constructor
  · rintro ⟨⟨cs', a⟩, hmem, heq⟩
    cases a <;> cases heq
    exact hmem
  · intro h
    exact ⟨_, h, rfl⟩

/-- The blocks handed to `ApplyBlock` so far, with the state at that moment. -/
def applied (n : Node) : List (ConsensusState × Block) :=
  n.trace.filterMap fun x =>
    match x.2 with
    | .applyBlock b _ _ => some (x.1, b)
    | _ => none

theorem mem_applied {b : Block} :
    (cs, b) ∈ n.applied ↔ ∃ c result, (cs, .applyBlock b c result) ∈ n.trace := by
  unfold applied
  rw [List.mem_filterMap]
  constructor
  · rintro ⟨⟨cs', a⟩, hmem, heq⟩
    cases a <;> cases heq
    exact ⟨_, _, hmem⟩
  · rintro ⟨c, result, h⟩
    exact ⟨_, h, rfl⟩

end Node

/-- `m` has signed and cast the same votes as `n`. -/
structure SameVotes (n m : Node) : Prop where
  signs : m.signs = n.signs
  casts : m.casts = n.casts

namespace SameVotes

variable {n m : Node}

theorem refl (n : Node) : SameVotes n n := ⟨rfl, rfl⟩

theorem trans {k : Node} (h : SameVotes n m) (h' : SameVotes m k) : SameVotes n k :=
  ⟨h'.signs.trans h.signs, h'.casts.trans h.casts⟩

/-- Only the trace matters. -/
theorem of_trace (h : m.trace = n.trace) : SameVotes n m := by
  constructor
  · rw [Node.signs, h, ← Node.signs]
  · rw [Node.casts, h, ← Node.casts]

theorem append {l : List (ConsensusState × Action)} (h : m.trace = l ++ n.trace)
    (hnew : ∀ x ∈ l, ∀ v, x.2 ≠ .signVote v ∧ x.2 ≠ .castVote v) : SameVotes n m := by
  constructor
  · rw [Node.signs, h, List.filterMap_append, ← Node.signs, List.filterMap_eq_nil_iff.mpr]
    · rfl
    · rintro ⟨cs, a⟩ hx
      cases a <;> first | rfl | exact absurd rfl (hnew _ hx _).1
  · rw [Node.casts, h, List.filterMap_append, ← Node.casts, List.filterMap_eq_nil_iff.mpr]
    · rfl
    · rintro ⟨cs, a⟩ hx
      cases a <;> first | rfl | exact absurd rfl (hnew _ hx _).2

theorem emit {a : Action} (h : ∀ v, a ≠ .signVote v ∧ a ≠ .castVote v) :
    SameVotes n (n.emit a) :=
  append (l := [(n.cs, a)]) rfl (by simpa using h)

theorem walWrite (env : Env) (m : Message) (sync : Bool) (n : Node) :
    SameVotes n (n.walWrite env m sync) := by
  unfold Node.walWrite
  split
  · exact refl n
  · split
    · exact emit (by simp)
    · exact of_trace rfl

theorem takeProposal (p : Proposal) (own : Bool) (n : Node) :
    SameVotes n (n.takeProposal p own) := by
  unfold Node.takeProposal
  dsimp only
  split
  · exact append (l := [_, _]) rfl (by simp)
  · exact append (l := [_]) rfl (by simp)

variable [Externals]

theorem startPrevote (n : Node) : SameVotes n n.startPrevote := by
  rcases n.startPrevote_cases with ⟨-, heq⟩ | ⟨-, heq⟩
  · rw [heq]
    exact of_trace rfl
  · rw [heq]
    exact append (l := [_]) rfl (by simp)

theorem startPrecommit (env : Env) (n : Node) : SameVotes n (n.startPrecommit env).1 := by
  rcases startPrecommit_cases env n with heq | ⟨hash, -, -, heq⟩ | ⟨block, -, -, -, heq⟩
  · rw [heq]
    exact of_trace rfl
  · rw [heq]
    exact append (l := [_]) rfl (by simp)
  · rw [heq]
    refine SameVotes.trans ?_ (walWrite env _ true _)
    exact append (l := [(((n.setStep .precommit).lockOn block).cs, .lock)]) rfl (by simp)

theorem startCommit (env : Env) (halive : n.panicked = none) :
    SameVotes n (n.startCommit env) := by
  rcases startCommit_cases env n halive with ⟨commit, block, updates, newSet, hc⟩ | hf
  · rw [hc.eq]
    have hentries : SameVotes n { n.setStep .commit with
        trace := syncEntry (n.setStep .commit).cs (.ofEndHeight n.cs.height) ++
          (applyEntry (n.setStep .commit).cs block commit updates ++ n.trace) } := by
      refine append (by rw [← List.append_assoc]) ?_
      intro x hx v
      rcases List.mem_append.mp hx with hx | hx
      · rw [mem_syncEntry hx]
        simp
      · rw [mem_applyEntry hx]
        simp
    refine hentries.trans ?_
    unfold Node.advanceHeight
    dsimp only
    split
    · exact of_trace rfl
    · exact append (l := [_]) rfl (by simp)
  · rcases hf.trace with ht | ⟨commit, block, result, -, ht⟩
    · exact of_trace ht
    · exact append (l := [_]) ht (by simp)

end SameVotes

/-! ## The two voting steps -/

variable [Externals]

/-- `m` is about to vote for `hash`: it has just entered Prevote, with or without
taking a proposal first, or Precommit. -/
inductive VoteStart (env : Env) (input : Option Event) (n : Node) :
    Node → VoteType → Option Hash → Prop
  | prevote : n.cs.step < .prevote →
      VoteStart env input n n.startPrevote .prevote n.cs.decidePrevote.1
  | prevoteReceived {p : Proposal} : n.cs.step < .prevote → input = some (.proposal p) →
      n.cs.acceptsProposal env p = true →
      VoteStart env input n (n.takeProposal p false).startPrevote .prevote
        (n.takeProposal p false).cs.decidePrevote.1
  | prevoteOwn {p : Proposal} : OwnProposal n.cs env p →
      VoteStart env input n (n.takeProposal p true).startPrevote .prevote
        (n.takeProposal p true).cs.decidePrevote.1
  | precommit : n.cs.step < .precommit →
      VoteStart env input n (n.startPrecommit env).1 .precommit (n.startPrecommit env).2

/-! ## Atoms -/

/-- The node may take the proposal: one it made itself, or one it accepts. -/
def TakesProposal (env : Env) (input : Option Event) (cs : ConsensusState) (p : Proposal) :
    Bool → Prop
  | true => OwnProposal cs env p
  | false => input = some (.proposal p) ∧ cs.acceptsProposal env p = true

/-- The building blocks of micro-steps. -/
inductive Atom (env : Env) (input : Option Event) : Node → Node → Prop
  | emit {n a} : a.Neutral n.cs → Atom env input n (n.emit a)
  | halt {n p} : Atom env input n (n.halt p)
  | startRound {n r} : n.cs.round ≤ r → Atom env input n (n.startRound r)
  | takeProposal {n p own} : TakesProposal env input n.cs p own →
      Atom env input n (n.takeProposal p own)
  | startPrevote {n} : Atom env input n n.startPrevote
  | startPrevoteWait {n} : Atom env input n n.startPrevoteWait
  | startPrecommit {n} : Atom env input n (n.startPrecommit env).1
  | startPrecommitWait {n} : Atom env input n n.startPrecommitWait
  | castOwnVote {n t hash} : n.panicked = .none → Atom env input n (n.castOwnVote env t hash).1
  | receiveVote {n now v} : input = some (.vote v) →
      Atom env input n (n.setVotes (n.cs.votes.addVote now v).2)
  | raiseRound {n r} : Atom env input n (n.raiseRound r)
  | startCommit {n} : n.panicked = .none → Atom env input n (n.startCommit env)

abbrev Atoms (env : Env) (input : Option Event) : Node → Node → Prop :=
  Relation.ReflTransGen (Atom env input)

variable {env : Env} {input : Option Event} {n m : Node} {t : VoteType} {hash : Option Hash}
  {re : Bool}

theorem VoteStart.sameVotes (h : VoteStart env input n m t hash) : SameVotes n m := by
  cases h with
  | prevote => exact SameVotes.startPrevote n
  | prevoteReceived => exact (SameVotes.takeProposal _ _ n).trans (SameVotes.startPrevote _)
  | prevoteOwn => exact (SameVotes.takeProposal _ _ n).trans (SameVotes.startPrevote _)
  | precommit => exact SameVotes.startPrecommit _ n

theorem TakesProposal.height_round {cs : ConsensusState} {p : Proposal} {own : Bool}
    (h : TakesProposal env input cs p own) : p.height = cs.height ∧ p.round = cs.round := by
  cases own with
  | true => exact ⟨OwnProposal.height h, OwnProposal.round h⟩
  | false =>
    obtain ⟨hh, hr, -⟩ := acceptsProposal_iff.mp h.2
    exact ⟨hh, hr⟩

theorem VoteStart.atoms {k : Node} (h : VoteStart env input n k t hash) : Atoms env input n k := by
  cases h with
  | prevote => exact .single .startPrevote
  | prevoteReceived _ hinput hacc =>
    have htakes : TakesProposal env input n.cs _ false := ⟨hinput, hacc⟩
    exact .head (.takeProposal htakes) (.single .startPrevote)
  | prevoteOwn hown =>
    have htakes : TakesProposal env input n.cs _ true := hown
    exact .head (.takeProposal htakes) (.single .startPrevote)
  | precommit => exact .single .startPrecommit

/-- Every micro-step is made of atoms. -/
theorem MicroStep.atoms (h : MicroStep re env input n m) : Atoms env input n m := by
  cases h with
  | emit _ ha => exact .single (.emit ha)
  | halt => exact .single .halt
  | startRound _ hr => exact .single (.startRound (by omega))
  | reenter => exact .single (.startRound le_rfl)
  | accept _ hinput hacc =>
    have htakes : TakesProposal env input n.cs _ false := ⟨hinput, hacc⟩
    exact .single (.takeProposal htakes)
  | acceptPrevote halive hinput hacc hstep =>
    exact (VoteStart.prevoteReceived hstep hinput hacc).atoms.tail (.castOwnVote (by simp [halive]))
  | proposePrevote halive hown =>
    exact (VoteStart.prevoteOwn hown).atoms.tail (.castOwnVote (by simp [halive]))
  | prevote halive _ => exact .head .startPrevote (.single (.castOwnVote (by simp [halive])))
  | prevoteWait => exact .single .startPrevoteWait
  | precommit halive hstep =>
    refine .head (show Atom env input n (n.startPrecommit env).1 from .startPrecommit) ?_
    unfold Node.precommitOnce
    cases hp : (n.startPrecommit env).1.panicked with
    | none =>
      rw [Node.andThen_alive hp]
      exact .single (.castOwnVote hp)
    | some p => rw [Node.andThen_panicked hp]
  | precommitWait => exact .single .startPrecommitWait
  | receiveVote _ hinput => exact .single (.receiveVote hinput)
  | commit halive => exact .head .raiseRound (.single (.startCommit (by simp [halive])))
  | raiseRound => exact .single .raiseRound

/-- What holds before and survives every atom holds after. -/
theorem Atoms.invariant {P : Node → Prop} (h : Atoms env input n m) (hn : P n)
    (hstep : ∀ n m, P n → Atom env input n m → P m) : P m := by
  induction h with
  | refl => exact hn
  | tail _ hlast ih => exact hstep _ _ ih hlast

/-! ## What the trace gains -/

/-- A trace entry that an atom from `n` to `m` may add: it shows the state of `m`, or
the state of `n` with step `s`. -/
inductive Gain (env : Env) (input : Option Event) (n m : Node) (s : RoundStep) :
    ConsensusState × Action → Prop
  | neutral {a : Action} : a.Neutral m.cs → Gain env input n m s (m.cs, a)
  | schedule {ti : TimeoutInfo} : Gain env input n m s (m.cs, .scheduleTimeout ti)
  | accept {p : Proposal} {own : Bool} : TakesProposal env input n.cs p own →
      m = n.takeProposal p own → Gain env input n m s (m.cs, .acceptProposal p)
  | broadcast {p : Proposal} : OwnProposal n.cs env p → m = n.takeProposal p true →
      Gain env input n m s (m.cs, .broadcastProposal p)
  | unlockPol : n.cs.decidePrevote.2 = true → Gain env input n m s ((n.setStep s).cs, .unlockPol)
  | unlockNil {hash : Option Hash} : n.cs.votes.majority .prevote n.cs.round = some hash →
      isHashEmpty hash = true → Gain env input n m s ((n.setStep s).cs, .unlockNil)
  | lock : Gain env input n m s (m.cs, .lock)
  | state : Gain env input n m s (m.cs, .walWrite (.ofState m.cs.stateData) true)
  | sign {v : Vote} : Gain env input n m s ((n.setStep s).cs, .signVote v)
  | vote {v : Vote} : Gain env input n m s ((n.setStep s).cs, .walWrite (.ofVote v) true)
  | cast {v : Vote} : Gain env input n m s (m.cs, .castVote v)
  | endHeight : Gain env input n m s ((n.setStep s).cs, .walWrite (.ofEndHeight n.cs.height) true)
  | apply {block : Block} {commit : Commit} {result : Option (List ValidatorUpdate)} :
      CommitChoice n.cs commit block →
      Gain env input n m s ((n.setStep s).cs, .applyBlock block commit result)

theorem Gain.eq_or {s : RoundStep} {x : ConsensusState × Action} (h : Gain env input n m s x) :
    x.1 = m.cs ∨ x.1 = (n.setStep s).cs := by
  cases h <;> first | exact .inl rfl | exact .inr rfl

/-- `m` extends the trace of `n` by gains. -/
def Entries (env : Env) (input : Option Event) (n m : Node) (s : RoundStep) : Prop :=
  ∃ l, m.trace = l ++ n.trace ∧ ∀ x ∈ l, Gain env input n m s x

namespace Entries

variable {env : Env} {input : Option Event} {n m : Node} {s : RoundStep}

theorem of_trace (h : m.trace = n.trace) : Entries env input n m s := ⟨[], h, by simp⟩

theorem single {x : ConsensusState × Action} (h : m.trace = x :: n.trace)
    (hx : Gain env input n m s x) :
    Entries env input n m s :=
  ⟨[x], h, by simpa using hx⟩

theorem takeProposal {p : Proposal} {own : Bool} (htakes : TakesProposal env input n.cs p own) :
    Entries env input n (n.takeProposal p own) s := by
  refine ⟨_ ++ [_], by rw [Node.takeProposal_trace, List.append_cons], fun x hx => ?_⟩
  rcases List.mem_append.mp hx with hx | hx
  · split at hx
    · rename_i hown
      rw [List.mem_singleton.mp hx]
      obtain ⟨rfl, -⟩ := Bool.and_eq_true_iff.mp hown
      exact .broadcast htakes rfl
    · cases hx
  · rw [List.mem_singleton.mp hx]
    exact .accept htakes rfl

theorem raiseRound (r : Int) (n : Node) (s : RoundStep) :
    Entries env input n (n.raiseRound r) s := by
  unfold Node.raiseRound
  split <;> exact of_trace rfl

theorem startPrevote (n : Node) : Entries env input n n.startPrevote .prevote := by
  rcases n.startPrevote_cases with ⟨-, heq⟩ | ⟨hunlock, heq⟩
  · rw [heq]
    exact of_trace rfl
  · rw [heq]
    exact single rfl (.unlockPol hunlock)

theorem startPrecommit (env : Env) (n : Node) :
    Entries env input n (n.startPrecommit env).1 .precommit := by
  rcases startPrecommit_cases env n with heq | ⟨hash, hmaj, hempty, heq⟩ | ⟨block, -, -, -, heq⟩
  · rw [heq]
    exact of_trace rfl
  · rw [heq]
    exact single rfl (.unlockNil hmaj hempty)
  · rw [heq]
    unfold Node.writeState
    generalize hk : (n.setStep .precommit).lockOn block = k
    have htrace : k.trace = (k.cs, .lock) :: n.trace := by
      rw [← hk]
      rfl
    rcases walWrite_cases env (.ofState k.cs.stateData) k with hw | hw
    · rw [hw]
      refine ⟨syncEntry k.cs (.ofState k.cs.stateData) ++ [(k.cs, .lock)], ?_, fun x hx => ?_⟩
      · rw [List.append_assoc, List.singleton_append, ← htrace]
      · rcases List.mem_append.mp hx with hx | hx
        · rw [mem_syncEntry hx]
          exact .state
        · rw [List.mem_singleton.mp hx]
          exact .lock
    · rw [hw]
      exact single htrace .lock

theorem castOwnVote {t : VoteType} {hash : Option Hash} (halive : n.panicked = none) :
    Entries env input n (n.castOwnVote env t hash).1 n.cs.step := by
  rcases castOwnVote_cases env t hash halive with heq | ⟨v, hcast, -⟩ | ⟨v, hfail, -⟩
  · rw [heq]
    exact of_trace rfl
  · refine ⟨((n.castOwnVote env t hash).1.cs, .castVote v) ::
      syncEntry n.cs (.ofVote v) ++ [(n.cs, .signVote v)], ?_, fun x hx => ?_⟩
    · rw [hcast.trace]
      simp
    · simp only [List.cons_append, List.mem_cons, List.mem_append, List.not_mem_nil,
        or_false] at hx
      rcases hx with rfl | hx | rfl
      · exact .cast
      · rw [mem_syncEntry hx]
        exact .vote
      · exact .sign
  · rcases hfail.trace with ht | ht
    · exact single ht .sign
    · refine ⟨syncEntry n.cs (.ofVote v) ++ [(n.cs, .signVote v)], ?_, fun x hx => ?_⟩
      · rw [ht]
        simp
      · rcases List.mem_append.mp hx with hx | hx
        · rw [mem_syncEntry hx]
          exact .vote
        · rw [List.mem_singleton.mp hx]
          exact .sign

theorem startCommit (env : Env) (halive : n.panicked = none) :
    Entries env input n (n.startCommit env) .commit := by
  rcases startCommit_cases env n halive with ⟨commit, block, updates, newSet, hc⟩ | hf
  · generalize n.startCommit env = m at hc ⊢
    have hentries : ∀ x ∈ syncEntry (n.setStep .commit).cs (.ofEndHeight n.cs.height) ++
        applyEntry (n.setStep .commit).cs block commit updates, Gain env input n m .commit x := by
      intro x hx
      rcases List.mem_append.mp hx with hx | hx
      · rw [mem_syncEntry hx]
        exact .endHeight
      · rw [mem_applyEntry hx]
        exact .apply hc.choice
    generalize hl : syncEntry (n.setStep .commit).cs (.ofEndHeight n.cs.height) ++
      applyEntry (n.setStep .commit).cs block commit updates = l at hentries
    have htrace : m.trace = l ++ n.trace ∨
        m.trace = (m.cs, .scheduleTimeout ⟨m.cs.height, 0, .commit⟩) :: l ++ n.trace := by
      rw [hc.eq, ← hl]
      unfold Node.advanceHeight
      dsimp only
      split
      · exact .inl (List.append_assoc ..).symm
      · exact .inr (congrArg (List.cons _) (List.append_assoc ..).symm)
    rcases htrace with htrace | htrace
    · exact ⟨l, htrace, hentries⟩
    · refine ⟨_, htrace, fun x hx => ?_⟩
      rcases List.mem_cons.mp hx with rfl | hx
      · exact .schedule
      · exact hentries x hx
  · rcases hf.trace with ht | ⟨commit, block, result, hchoice, ht⟩
    · exact of_trace ht
    · exact single ht (.apply hchoice)

end Entries

theorem Atom.entries (h : Atom env input n m) : ∃ s, Entries env input n m s := by
  cases h with
  | emit ha => exact ⟨n.cs.step, .single rfl (.neutral ha)⟩
  | halt => exact ⟨n.cs.step, .of_trace rfl⟩
  | startRound => exact ⟨n.cs.step, .single rfl .schedule⟩
  | takeProposal htakes => exact ⟨n.cs.step, .takeProposal htakes⟩
  | startPrevote => exact ⟨_, .startPrevote n⟩
  | startPrevoteWait => exact ⟨n.cs.step, .single rfl .schedule⟩
  | startPrecommit => exact ⟨_, .startPrecommit _ n⟩
  | startPrecommitWait => exact ⟨n.cs.step, .single rfl .schedule⟩
  | castOwnVote halive => exact ⟨_, .castOwnVote halive⟩
  | receiveVote => exact ⟨n.cs.step, .of_trace rfl⟩
  | raiseRound => exact ⟨n.cs.step, .raiseRound _ n _⟩
  | startCommit halive => exact ⟨_, .startCommit _ halive⟩

theorem Atom.trace_suffix (h : Atom env input n m) : n.trace <:+ m.trace := by
  obtain ⟨s, l, hl, -⟩ := h.entries
  exact ⟨l, hl.symm⟩

theorem Atoms.trace_suffix (h : Atoms env input n m) : n.trace <:+ m.trace := by
  induction h with
  | refl => exact List.suffix_refl _
  | tail _ hlast ih => exact ih.trans hlast.trace_suffix

theorem Steps.trace_suffix (h : Steps re env input n m) : n.trace <:+ m.trace :=
  h.invariant (P := fun k => n.trace <:+ k.trace) (List.suffix_refl _)
    fun _ _ hk hstep => hk.trans hstep.atoms.trace_suffix

/-! ## Votes per micro-step -/

/-- What a micro-step does to the votes of a node. -/
inductive Voting (env : Env) (input : Option Event) (n m : Node) : Prop
  | none : SameVotes n m → Voting env input n m
  | cast {k : Node} {t : VoteType} {hash : Option Hash} {vote : Vote} :
      VoteStart env input n k t hash → k.panicked = .none → Cast k env t hash vote m →
      m.signs = (k.cs, vote) :: n.signs → m.casts = (m.cs, vote) :: n.casts → Voting env input n m
  | failed {k : Node} {t : VoteType} {hash : Option Hash} {vote : Vote} :
      VoteStart env input n k t hash → k.panicked = .none → CastFailed k env t hash vote m →
      m.signs = (k.cs, vote) :: n.signs → m.casts = n.casts → Voting env input n m

omit [Externals] in
theorem filterMap_syncEntry {β : Type} (f : ConsensusState × Action → Option β)
    (cs : ConsensusState) (m : Message) (hf : f (cs, .walWrite m true) = none) :
    (syncEntry cs m).filterMap f = [] := by
  unfold syncEntry
  split
  · simp [hf]
  · rfl

theorem voting_of_voteStart {k : Node} (hk : VoteStart env input n k t hash)
    (halive : k.panicked = none) :
    Voting env input n (k.castOwnVote env t hash).1 := by
  have hsame := hk.sameVotes
  rcases castOwnVote_cases env t hash halive with heq | ⟨v, hcast, -⟩ | ⟨v, hfail, -⟩
  · rw [heq]
    exact .none hsame
  · refine .cast hk halive hcast ?_ ?_
    · rw [Node.signs, hcast.trace, List.cons_append, List.filterMap_cons,
        List.filterMap_append, filterMap_syncEntry _ _ _ rfl, List.filterMap_cons, ← hsame.signs]
      rfl
    · rw [Node.casts, hcast.trace, List.cons_append, List.filterMap_cons,
        List.filterMap_append, filterMap_syncEntry _ _ _ rfl, List.filterMap_cons, ← hsame.casts]
      rfl
  · refine .failed hk halive hfail ?_ ?_
    · rcases hfail.trace with ht | ht
      · rw [Node.signs, ht, List.filterMap_cons, ← hsame.signs]
        rfl
      · rw [Node.signs, ht, List.filterMap_append, filterMap_syncEntry _ _ _ rfl,
          List.filterMap_cons, ← hsame.signs]
        rfl
    · rcases hfail.trace with ht | ht
      · rw [Node.casts, ht, List.filterMap_cons, ← hsame.casts]
        rfl
      · rw [Node.casts, ht, List.filterMap_append, filterMap_syncEntry _ _ _ rfl,
          List.filterMap_cons, ← hsame.casts]
        rfl

/-- A micro-step casts at most one vote, and only right after a `VoteStart`. -/
theorem MicroStep.voting (h : MicroStep re env input n m) :
    Voting env input n m := by
  cases h with
  | emit _ ha => exact .none (SameVotes.emit fun v => by
      constructor <;> (rintro rfl; exact ha))
  | halt => exact .none (SameVotes.of_trace rfl)
  | startRound => exact .none (SameVotes.append (l := [_]) rfl (by simp))
  | reenter => exact .none (SameVotes.append (l := [_]) rfl (by simp))
  | accept => exact .none (SameVotes.takeProposal _ _ n)
  | acceptPrevote halive hinput hacc hstep =>
    exact voting_of_voteStart (.prevoteReceived hstep hinput hacc) (by simp [halive])
  | proposePrevote halive hown => exact voting_of_voteStart (.prevoteOwn hown) (by simp [halive])
  | prevote halive hstep => exact voting_of_voteStart (.prevote hstep) (by simp [halive])
  | prevoteWait => exact .none (SameVotes.append (l := [_]) rfl (by simp))
  | precommit halive hstep =>
    have hstart : VoteStart env input n (n.startPrecommit env).1 _ _ := .precommit hstep
    unfold Node.precommitOnce
    cases hp : (n.startPrecommit env).1.panicked with
    | none =>
      rw [Node.andThen_alive hp]
      exact voting_of_voteStart hstart hp
    | some p =>
      rw [Node.andThen_panicked hp]
      exact .none hstart.sameVotes
  | precommitWait => exact .none (SameVotes.append (l := [_]) rfl (by simp))
  | receiveVote => exact .none (SameVotes.of_trace rfl)
  | commit halive =>
    refine .none (SameVotes.trans (SameVotes.of_trace ?_)
      (SameVotes.startCommit env (by simp [halive])))
    unfold Node.raiseRound
    split <;> rfl
  | raiseRound =>
    refine .none (SameVotes.of_trace ?_)
    unfold Node.raiseRound
    split <;> rfl

end Leaderberry
