import Leaderberry.Engine.Scenario
import Leaderberry.Engine.Voting
import Leaderberry.Lib.Channel

/-!
# The event loop and its channels (`engine/state.go`, `engine/timeout.go`)

A started `ConsensusState` is several goroutines around four channels. `AddProposal` and
`AddVote` send from anywhere; `receiveRoutine` takes one message or timeout at a time and
handles it; `TimeoutTicker.run` arms a timer for each timeout it is asked for, which stops the
one before; the callback of a timer that has fired sends the timeout back. No send waits: what
finds a channel full is dropped and counted.

- `EventLoop.State`, `EventLoop.step`: the goroutines, one step at a time.
- `EventLoop.Inv`: what holds between any two steps; `Inv.step`, `inv_run`.
- `EventLoop.refines_run`: the node of every interleaving has had a run over the events it
  handled, and where every message and every timeout is.

A timeout has its number among the timeouts that the node has scheduled. The durations are
left out: a timer may fire at any time. `Stop` clears `started`, which no handler reads.
-/

namespace Leaderberry

/-- The timeouts a node has scheduled, oldest first. -/
def Node.scheduled (n : Node) : List TimeoutInfo :=
  n.trace.reverse.filterMap fun x =>
    match x.2 with
    | .scheduleTimeout ti => some ti
    | _ => none

namespace EventLoop

def proposalChannelSize : Nat := 100
def voteChannelSize : Nat := 10000
def timeoutChannelSize : Nat := 100

/-- A scheduled timeout and its number. -/
structure Tick where
  id : Nat
  info : TimeoutInfo
deriving DecidableEq

/-- What `receiveRoutine` takes out of its channels. -/
inductive Input where
  | proposal (p : Proposal)
  | vote (v : Vote)
  | timeout (t : Tick)
deriving DecidableEq

namespace Input

def event : Input → Event
  | proposal p => .proposal p
  | vote v => .vote v
  | timeout t => .timeout t.info

def proposal? : Input → Option Proposal
  | proposal p => some p
  | _ => none

def vote? : Input → Option Vote
  | vote v => some v
  | _ => none

def timeout? : Input → Option Tick
  | timeout t => some t
  | _ => none

end Input

structure State where
  node : Node
  proposalCh : Channel proposalChannelSize Proposal
  voteCh : Channel voteChannelSize Vote
  tickCh : Channel timeoutChannelSize Tick
  tockCh : Channel timeoutChannelSize Tick
  /-- How many of the scheduled timeouts have been handed to `ScheduleTimeout`. -/
  sent : Nat
  /-- Taken by `receiveRoutine`, and not handled yet. -/
  hand : Option Input
  /-- The timer that runs. -/
  timer : Option Tick
  /-- The callbacks of timers that have fired. -/
  callbacks : List Tick
  /-- The context is done. -/
  cancelled : Bool
  /-- `stopCh` is closed. -/
  stopped : Bool
  /-- `receiveRoutine` has returned. -/
  exited : Bool
  /-- `TimeoutTicker.run` has returned. -/
  tickerExited : Bool
  /-- What was handled, oldest first. -/
  handled : List (Env × Input)
  /-- The timers that were stopped before they fired. -/
  stoppedTimers : List Tick
  /-- The timeouts whose callbacks found `stopCh` closed. -/
  discarded : List Tick

inductive Step where
  | addProposal (p : Proposal)
  | addVote (v : Vote)
  | takeProposal
  | takeVote
  | takeTimeout
  /-- The handler of what was taken gets the mutex and runs. -/
  | work (env : Env)
  /-- The handler, or `Start`, gets to its next `ScheduleTimeout`. -/
  | schedule
  /-- `run` takes a timeout and starts its timer. -/
  | arm
  | fire
  /-- The `i`-th callback sends. -/
  | deliver (i : Nat)
  /-- The `i`-th callback finds `stopCh` closed. -/
  | discard (i : Nat)
  | cancel
  | stopTicker
  | exitLoop
  | exitTicker

def Step.proposal? : Step → Option Proposal
  | addProposal p => some p
  | _ => none

def Step.vote? : Step → Option Vote
  | addVote v => some v
  | _ => none

namespace State

/-- The events that were handled. -/
def events (s : State) : List (Env × Event) := s.handled.map fun e => (e.1, e.2.event)

/-- Everything that was taken. -/
def inputs (s : State) : List Input := s.handled.map Prod.snd ++ s.hand.toList

/-- No handler is at work. -/
def Quiet (s : State) : Prop := s.sent = s.node.scheduled.length

instance (s : State) : Decidable s.Quiet := inferInstanceAs (Decidable (_ = _))

/-- `receiveRoutine` is at its `select`; before it has handled anything, `Start` may still be
at work. -/
def Selecting (s : State) : Prop :=
  s.hand = none ∧ s.exited = false ∧ (s.handled.length = 0 ∨ s.Quiet)

instance (s : State) : Decidable s.Selecting := inferInstanceAs (Decidable (_ ∧ _ ∧ (_ ∨ _)))

/-- The timeout is on its way to its handler. -/
def Waiting (s : State) (t : Tick) : Prop :=
  s.sent ≤ t.id ∨ t ∈ s.tickCh.queue ∨ s.timer = some t ∨ t ∈ s.callbacks ∨
    t ∈ s.tockCh.queue ∨ s.hand = some (.timeout t)

/-- The timeout found a channel full, or the ticker was stopped, or the timer of a later one
was started. -/
def Lost (s : State) (t : Tick) : Prop :=
  t ∈ s.tickCh.refused ∨ t ∈ s.tockCh.refused ∨ s.stopped = true ∨
    ∃ t' ∈ s.tickCh.taken, t.id < t'.id ∧ s.node.scheduled[t'.id]? = some t'.info

end State

/-- Of what was sent, `took` has been taken in the order in which it was sent, and the rest is
in the buffer or was dropped. -/
structure Accounts {capacity : Nat} {α : Type} (c : Channel capacity α) (sent took : List α) :
    Prop where
  fifo : (took ++ c.queue).Sublist sent
  complete : sent.Perm (took ++ c.queue ++ c.refused)
  bound : c.queue.length ≤ capacity

theorem accounts {capacity : Nat} {α : Type} {c : Channel capacity α} {sent took : List α}
    (hsent : c.offered.map Prod.fst = sent) (htook : c.taken = took) : Accounts c sent took where
  fifo := hsent ▸ htook ▸ c.sublist_offered
  complete := hsent ▸ htook ▸ c.perm_offered
  bound := c.bound

/-! ## Numbers -/

/-- The first `n` scheduled timeouts with their numbers. -/
def numbered (infos : List TimeoutInfo) (n : Nat) : List Tick := (infos.take n).mapIdx Tick.mk

section numbered

variable {infos infos' : List TimeoutInfo} {n : Nat}

theorem numbered_succ {info : TimeoutInfo} (h : infos[n]? = some info) :
    numbered infos (n + 1) = numbered infos n ++ [⟨n, info⟩] := by
  have hlt : n < infos.length := (List.getElem?_eq_some_iff.mp h).1
  have hlen : (infos.take n).length = n := List.length_take_of_le (Nat.le_of_lt hlt)
  rw [numbered, List.take_add_one, h, Option.toList_some, List.mapIdx_concat, hlen]
  rfl

theorem mem_numbered {t : Tick} :
    t ∈ numbered infos n ↔ t.id < n ∧ infos[t.id]? = some t.info := by
  rw [numbered, List.mem_mapIdx]
  constructor
  · rintro ⟨i, hi, rfl⟩
    rw [List.length_take] at hi
    show i < n ∧ infos[i]? = some (infos.take n)[i]
    rw [List.getElem_take]
    exact ⟨by omega, List.getElem?_eq_getElem _⟩
  · rintro ⟨hlt, hinfo⟩
    obtain ⟨hlen, hget⟩ := List.getElem?_eq_some_iff.mp hinfo
    refine ⟨t.id, by rw [List.length_take]; omega, ?_⟩
    rw [List.getElem_take, hget]

/-- The numbers go up. -/
theorem pairwise_numbered (infos : List TimeoutInfo) (n : Nat) :
    (numbered infos n).Pairwise fun t t' => t.id < t'.id := by
  rw [List.pairwise_iff_getElem]
  intro i j hi hj hlt
  simp only [numbered, List.getElem_mapIdx]
  exact hlt

/-- What is scheduled later does not change the numbers. -/
theorem numbered_extend (h : infos <+: infos') (hn : n ≤ infos.length) :
    numbered infos' n = numbered infos n := by
  obtain ⟨more, rfl⟩ := h
  rw [numbered, List.take_append_of_le_length hn, numbered]

end numbered

section

variable [Externals]

/-! ## The goroutines -/

/-- After `Start` has entered round 0; its timeouts are yet to be handed over. -/
def start (l : Launch) (env : Env) : State where
  node := l.start env
  proposalCh := .empty
  voteCh := .empty
  tickCh := .empty
  tockCh := .empty
  sent := 0
  hand := none
  timer := none
  callbacks := []
  cancelled := false
  stopped := false
  exited := false
  tickerExited := false
  handled := []
  stoppedTimers := []
  discarded := []

/-- One step of one goroutine. A step that is not possible changes nothing. -/
def step (s : State) : Step → State
  | .addProposal p => { s with proposalCh := s.proposalCh.send p }
  | .addVote v => { s with voteCh := s.voteCh.send v }
  | .takeProposal =>
    match s.proposalCh.queue.head? with
    | none => s
    | some p =>
      if s.Selecting then
        { s with proposalCh := s.proposalCh.receive, hand := some (.proposal p) }
      else s
  | .takeVote =>
    match s.voteCh.queue.head? with
    | none => s
    | some v =>
      if s.Selecting then { s with voteCh := s.voteCh.receive, hand := some (.vote v) }
      else s
  | .takeTimeout =>
    match s.tockCh.queue.head? with
    | none => s
    | some t =>
      if s.Selecting then { s with tockCh := s.tockCh.receive, hand := some (.timeout t) }
      else s
  | .work env =>
    match s.hand with
    | none => s
    | some input =>
      if s.Quiet then
        { s with
          node := handle env input.event s.node
          hand := none
          handled := s.handled ++ [(env, input)] }
      else s
  | .schedule =>
    match s.node.scheduled[s.sent]? with
    | none => s
    | some info => { s with tickCh := s.tickCh.send ⟨s.sent, info⟩, sent := s.sent + 1 }
  | .arm =>
    match s.tickCh.queue.head? with
    | none => s
    | some t =>
      if s.tickerExited then s
      else
        { s with
          tickCh := s.tickCh.receive
          stoppedTimers := s.stoppedTimers ++ s.timer.toList
          timer := some t }
  | .fire =>
    match s.timer with
    | none => s
    | some t => { s with timer := none, callbacks := s.callbacks ++ [t] }
  | .deliver i =>
    match s.callbacks[i]? with
    | none => s
    | some t => { s with callbacks := s.callbacks.eraseIdx i, tockCh := s.tockCh.send t }
  | .discard i =>
    match s.callbacks[i]? with
    | none => s
    | some t =>
      if s.stopped then
        { s with callbacks := s.callbacks.eraseIdx i, discarded := s.discarded ++ [t] }
      else s
  | .cancel => { s with cancelled := true }
  | .stopTicker =>
    if s.cancelled then
      { s with
        stopped := true
        stoppedTimers := s.stoppedTimers ++ s.timer.toList
        timer := none }
    else s
  | .exitLoop => if s.cancelled ∧ s.Selecting then { s with exited := true } else s
  | .exitTicker => if s.stopped then { s with tickerExited := true } else s

def run (l : Launch) (env : Env) (steps : List Step) : State := steps.foldl step (start l env)

/-- A handler only adds to the scheduled timeouts. -/
theorem scheduled_handle (env : Env) (event : Event) (n : Node) :
    n.scheduled <+: (handle env event n).scheduled :=
  (handle_steps event (.inl rfl)).trace_suffix.reverse.filterMap _

/-! ## The invariant -/

/-- What holds between any two steps. -/
structure Inv (l : Launch) (env : Env) (s : State) : Prop where
  run : s.node = l.run env s.events
  sent : s.sent ≤ s.node.scheduled.length
  ticks : s.tickCh.offered.map Prod.fst = numbered s.node.scheduled s.sent
  /-- Where the timeouts are that `run` has taken. -/
  armed : s.tickCh.taken.Perm (s.stoppedTimers ++ s.timer.toList ++ s.callbacks ++ s.discarded ++
    s.tockCh.offered.map Prod.fst)
  latest : ∀ t ∈ s.timer, ∀ t' ∈ s.tickCh.taken, t'.id ≤ t.id
  superseded : ∀ t ∈ s.stoppedTimers, s.stopped = true ∨ ∃ t' ∈ s.tickCh.taken, t.id < t'.id
  discarded : s.discarded ≠ [] → s.stopped = true
  proposals : s.proposalCh.taken = s.inputs.filterMap Input.proposal?
  votes : s.voteCh.taken = s.inputs.filterMap Input.vote?
  timeouts : s.tockCh.taken = s.inputs.filterMap Input.timeout?
  caused : ∀ pre env' t post, s.handled = pre ++ (env', .timeout t) :: post →
    (l.run env (pre.map fun e => (e.1, e.2.event))).scheduled[t.id]? = some t.info

variable {l : Launch} {env : Env} {s : State}

theorem inv_start (l : Launch) (env : Env) : Inv l env (start l env) where
  run := rfl
  sent := Nat.zero_le _
  ticks := rfl
  armed := List.Perm.refl _
  latest := fun _ h => by cases h
  superseded := fun _ h => by cases h
  discarded := fun h => absurd rfl h
  proposals := rfl
  votes := rfl
  timeouts := rfl
  caused := fun pre _ _ _ h => by cases pre <;> cases h

namespace Inv

variable {t : Tick} {i : Nat}

/-- A timeout that reached the ticker was scheduled under its number. -/
theorem of_armed (h : Inv l env s) (ht : t ∈ s.tickCh.taken) :
    t.id < s.sent ∧ s.node.scheduled[t.id]? = some t.info := by
  have hoffered := Channel.mem_offered_of_mem_taken ht
  rw [h.ticks] at hoffered
  exact mem_numbered.mp hoffered

theorem armed_of_timeout (h : Inv l env s) (ht : t ∈ s.tockCh.taken) :
    t ∈ s.tickCh.taken :=
  h.armed.mem_iff.mpr (List.mem_append_right _ (Channel.mem_offered_of_mem_taken ht))

omit [Externals] in
theorem filterMap_take {α : Type} (f : Input → Option α) (hhand : s.hand = none)
    (input : Input) : (s.handled.map Prod.snd ++ (some input).toList).filterMap f =
      s.inputs.filterMap f ++ (f input).toList := by
  rw [State.inputs, hhand, Option.toList_none, List.append_nil, List.filterMap_append]
  cases hf : f input <;> simp [hf]

/-- `receiveRoutine` takes something: the channel it comes from has been received from, the
others are as they were. -/
theorem take (h : Inv l env s) (hhand : s.hand = none) (input : Input)
    {proposalCh : Channel proposalChannelSize Proposal} {voteCh : Channel voteChannelSize Vote}
    {tockCh : Channel timeoutChannelSize Tick}
    (hproposal : proposalCh.taken = s.proposalCh.taken ++ input.proposal?.toList)
    (hvote : voteCh.taken = s.voteCh.taken ++ input.vote?.toList)
    (htimeout : tockCh.taken = s.tockCh.taken ++ input.timeout?.toList)
    (hoffered : tockCh.offered = s.tockCh.offered) :
    Inv l env { s with proposalCh, voteCh, tockCh, hand := some input } where
  __ := h
  armed := by
    show s.tickCh.taken.Perm (_ ++ tockCh.offered.map Prod.fst)
    rw [hoffered]
    exact h.armed
  proposals := by
    show proposalCh.taken = (s.handled.map Prod.snd ++ _).filterMap _
    rw [filterMap_take _ hhand, hproposal, h.proposals]
  votes := by
    show voteCh.taken = (s.handled.map Prod.snd ++ _).filterMap _
    rw [filterMap_take _ hhand, hvote, h.votes]
  timeouts := by
    show tockCh.taken = (s.handled.map Prod.snd ++ _).filterMap _
    rw [filterMap_take _ hhand, htimeout, h.timeouts]

omit [Externals] in
theorem inputs_work {input : Input} (hhand : s.hand = some input) (env : Env) :
    (s.handled ++ [(env, input)]).map Prod.snd ++ (none : Option Input).toList = s.inputs := by
  rw [State.inputs, hhand, List.map_append, Option.toList_none, List.append_nil]
  rfl

/-- The timeout at hand was scheduled before it is handled. -/
theorem scheduled_of_hand (h : Inv l env s) (hhand : s.hand = some (.timeout t)) :
    s.node.scheduled[t.id]? = some t.info := by
  have htaken : t ∈ s.tockCh.taken := by
    rw [h.timeouts, List.mem_filterMap]
    refine ⟨.timeout t, ?_, rfl⟩
    rw [State.inputs, hhand]
    exact List.mem_append_right _ (List.mem_singleton_self _)
  exact (h.of_armed (h.armed_of_timeout htaken)).2

theorem work (h : Inv l env s) {input : Input} (hhand : s.hand = some input) (env' : Env) :
    Inv l env { s with
      node := handle env' input.event s.node
      hand := none
      handled := s.handled ++ [(env', input)] } where
  __ := h
  run := by
    show handle env' input.event s.node = l.run env ((s.handled ++ [(env', input)]).map _)
    rw [List.map_append, List.map_singleton, l.run_append, h.run]
    rfl
  sent := h.sent.trans (scheduled_handle env' input.event s.node).length_le
  ticks := h.ticks.trans
    (numbered_extend (scheduled_handle env' input.event s.node) h.sent).symm
  proposals := by
    show s.proposalCh.taken = List.filterMap _ (_ ++ _)
    rw [inputs_work hhand, h.proposals]
  votes := by
    show s.voteCh.taken = List.filterMap _ (_ ++ _)
    rw [inputs_work hhand, h.votes]
  timeouts := by
    show s.tockCh.taken = List.filterMap _ (_ ++ _)
    rw [inputs_work hhand, h.timeouts]
  caused := by
    intro pre env'' t post hsplit
    replace hsplit : s.handled ++ [(env', input)] = pre ++ (env'', .timeout t) :: post := hsplit
    -- the event is an older one, or the one that was at hand
    rcases List.eq_nil_or_concat post with rfl | ⟨post, last, rfl⟩
    · obtain ⟨rfl, hlast⟩ := List.append_inj' hsplit rfl
      obtain ⟨rfl, rfl⟩ := Prod.mk.inj (List.singleton_inj.mp hlast)
      have hrun : s.node = l.run env (s.handled.map fun e => (e.1, e.2.event)) := h.run
      rw [← hrun]
      exact h.scheduled_of_hand hhand
    · refine h.caused pre env'' t post ?_
      have hsplit' : s.handled ++ [(env', input)] =
          (pre ++ (env'', .timeout t) :: post) ++ [last] := by
        rw [hsplit, List.append_assoc, List.cons_append, List.concat_eq_append]
      exact (List.append_inj' hsplit' rfl).1

theorem schedule (h : Inv l env s) {info : TimeoutInfo}
    (hinfo : s.node.scheduled[s.sent]? = some info) :
    Inv l env { s with tickCh := s.tickCh.send ⟨s.sent, info⟩, sent := s.sent + 1 } where
  __ := h
  sent := (List.getElem?_eq_some_iff.mp hinfo).1
  ticks := by
    show (s.tickCh.send ⟨s.sent, info⟩).offered.map Prod.fst = _
    rw [Channel.map_offered_send, h.ticks, numbered_succ hinfo]
  armed := by
    show (s.tickCh.send _).taken.Perm _
    rw [Channel.taken_send]
    exact h.armed
  latest := by
    show ∀ t ∈ s.timer, ∀ t' ∈ (s.tickCh.send _).taken, t'.id ≤ t.id
    rw [Channel.taken_send]
    exact h.latest
  superseded := by
    show ∀ t ∈ s.stoppedTimers, s.stopped = true ∨ ∃ t' ∈ (s.tickCh.send _).taken, t.id < t'.id
    rw [Channel.taken_send]
    exact h.superseded

/-- The next timeout has a higher number than those before. -/
theorem lt_head (h : Inv l env s) {t' : Tick} (hhead : s.tickCh.queue.head? = some t)
    (ht' : t' ∈ s.tickCh.taken) : t'.id < t.id := by
  have hpairwise := (pairwise_numbered s.node.scheduled s.sent)
  rw [← h.ticks] at hpairwise
  exact (List.pairwise_append.mp (hpairwise.sublist s.tickCh.sublist_offered)).2.2 t' ht' t
    (List.mem_of_mem_head? hhead)

theorem arm (h : Inv l env s) (hhead : s.tickCh.queue.head? = some t) :
    Inv l env { s with
      tickCh := s.tickCh.receive
      stoppedTimers := s.stoppedTimers ++ s.timer.toList
      timer := some t } where
  __ := h
  armed := by
    show s.tickCh.receive.taken.Perm _
    rw [Channel.taken_receive hhead]
    refine (h.armed.append_right [t]).trans ?_
    simp only [List.append_assoc, Option.toList_some]
    refine .append_left _ (.append_left _ ?_)
    rw [← List.append_assoc s.discarded, ← List.append_assoc s.callbacks]
    exact List.perm_append_comm
  latest := by
    intro t₁ ht₁ t' ht'
    obtain rfl : t = t₁ := Option.some_inj.mp ht₁
    replace ht' : t' ∈ s.tickCh.receive.taken := ht'
    rw [Channel.taken_receive hhead] at ht'
    rcases List.mem_append.mp ht' with hold | hnew
    · exact (h.lt_head hhead hold).le
    · rw [List.mem_singleton.mp hnew]
  superseded := by
    show ∀ t₁ ∈ s.stoppedTimers ++ s.timer.toList,
      s.stopped = true ∨ ∃ t' ∈ s.tickCh.receive.taken, t₁.id < t'.id
    rw [Channel.taken_receive hhead]
    intro t₁ ht₁
    rcases List.mem_append.mp ht₁ with hold | hnew
    · refine (h.superseded t₁ hold).imp_right ?_
      rintro ⟨t', ht', hlt⟩
      exact ⟨t', List.mem_append_left _ ht', hlt⟩
    · -- the timer that ran is stopped for the new one
      have hmem : t₁ ∈ s.tickCh.taken := h.armed.mem_iff.mpr (by simp [hnew])
      exact .inr ⟨t, List.mem_append_right _ (List.mem_singleton_self _), h.lt_head hhead hmem⟩

theorem fire (h : Inv l env s) (htimer : s.timer = some t) :
    Inv l env { s with timer := none, callbacks := s.callbacks ++ [t] } where
  __ := h
  armed := by
    refine h.armed.trans ?_
    rw [htimer]
    simp only [List.append_assoc, Option.toList_some, Option.toList_none, List.nil_append]
    refine .append_left _ ?_
    rw [← List.append_assoc, ← List.append_assoc s.callbacks]
    exact List.perm_append_comm.append_right _
  latest := fun _ ht => by cases ht

omit [Externals] in
theorem perm_eraseIdx {callbacks : List Tick} (h : callbacks[i]? = some t) :
    callbacks.Perm (callbacks.eraseIdx i ++ [t]) := by
  obtain ⟨hi, rfl⟩ := List.getElem?_eq_some_iff.mp h
  exact (List.getElem_cons_eraseIdx_perm hi).symm.trans (List.perm_append_singleton _ _).symm

theorem deliver (h : Inv l env s) (hcallback : s.callbacks[i]? = some t) :
    Inv l env { s with callbacks := s.callbacks.eraseIdx i, tockCh := s.tockCh.send t } where
  __ := h
  armed := by
    show s.tickCh.taken.Perm (_ ++ (s.tockCh.send t).offered.map Prod.fst)
    rw [Channel.map_offered_send]
    refine h.armed.trans ?_
    simp only [List.append_assoc]
    refine .append_left _ (.append_left _ ?_)
    refine ((perm_eraseIdx hcallback).append_right _).trans ?_
    rw [List.append_assoc]
    refine .append_left _ ?_
    rw [← List.append_assoc s.discarded]
    exact List.perm_append_comm
  timeouts := by
    show (s.tockCh.send t).taken = _
    rw [Channel.taken_send]
    exact h.timeouts

theorem discard (h : Inv l env s) (hcallback : s.callbacks[i]? = some t)
    (hstopped : s.stopped = true) :
    Inv l env { s with callbacks := s.callbacks.eraseIdx i, discarded := s.discarded ++ [t] } where
  __ := h
  armed := by
    refine h.armed.trans ?_
    simp only [List.append_assoc]
    refine .append_left _ (.append_left _ ?_)
    refine ((perm_eraseIdx hcallback).append_right _).trans ?_
    rw [List.append_assoc]
    refine .append_left _ ?_
    rw [← List.append_assoc, ← List.append_assoc s.discarded]
    exact List.perm_append_comm.append_right _
  discarded := fun _ => hstopped

theorem stopTicker (h : Inv l env s) :
    Inv l env { s with
      stopped := true
      stoppedTimers := s.stoppedTimers ++ s.timer.toList
      timer := none } where
  __ := h
  armed := by
    simpa only [Option.toList_none, List.append_nil] using h.armed
  latest := fun _ ht => by cases ht
  superseded := fun _ _ => .inl rfl
  discarded := fun _ => rfl

theorem step (h : Inv l env s) (st : Step) : Inv l env (EventLoop.step s st) := by
  cases st with
  | addProposal p =>
    exact { h with
      proposals := by
        show (s.proposalCh.send p).taken = _
        rw [Channel.taken_send]
        exact h.proposals }
  | addVote v =>
    exact { h with
      votes := by
        show (s.voteCh.send v).taken = _
        rw [Channel.taken_send]
        exact h.votes }
  | takeProposal =>
    dsimp only [EventLoop.step]
    split
    · exact h
    · rename_i p hhead
      split
      · rename_i hselecting
        exact h.take hselecting.1 (.proposal p) (Channel.taken_receive hhead)
          (List.append_nil _).symm (List.append_nil _).symm rfl
      · exact h
  | takeVote =>
    dsimp only [EventLoop.step]
    split
    · exact h
    · rename_i v hhead
      split
      · rename_i hselecting
        exact h.take hselecting.1 (.vote v) (List.append_nil _).symm
          (Channel.taken_receive hhead) (List.append_nil _).symm rfl
      · exact h
  | takeTimeout =>
    dsimp only [EventLoop.step]
    split
    · exact h
    · rename_i t hhead
      split
      · rename_i hselecting
        exact h.take hselecting.1 (.timeout t) (List.append_nil _).symm
          (List.append_nil _).symm (Channel.taken_receive hhead) rfl
      · exact h
  | work env' =>
    dsimp only [EventLoop.step]
    split
    · exact h
    · rename_i input hhand
      split
      · exact h.work hhand env'
      · exact h
  | schedule =>
    dsimp only [EventLoop.step]
    split
    · exact h
    · rename_i info hinfo
      exact h.schedule hinfo
  | arm =>
    dsimp only [EventLoop.step]
    split
    · exact h
    · rename_i t hhead
      split
      · exact h
      · exact h.arm hhead
  | fire =>
    dsimp only [EventLoop.step]
    split
    · exact h
    · rename_i t htimer
      exact h.fire htimer
  | deliver i =>
    dsimp only [EventLoop.step]
    split
    · exact h
    · rename_i t hcallback
      exact h.deliver hcallback
  | discard i =>
    dsimp only [EventLoop.step]
    split
    · exact h
    · rename_i t hcallback
      split
      · rename_i hstopped
        exact h.discard hcallback hstopped
      · exact h
  | cancel => exact { h with }
  | stopTicker =>
    dsimp only [EventLoop.step]
    split
    · exact h.stopTicker
    · exact h
  | exitLoop =>
    dsimp only [EventLoop.step]
    split
    · exact { h with }
    · exact h
  | exitTicker =>
    dsimp only [EventLoop.step]
    split
    · exact { h with }
    · exact h

end Inv

theorem inv_run (l : Launch) (env : Env) (steps : List Step) : Inv l env (run l env steps) := by
  induction steps using List.reverseRecOn with
  | nil => exact inv_start l env
  | append_singleton steps st ih =>
    rw [run, List.foldl_append]
    exact ih.step st

/-! ## Where everything is -/

theorem offered_step (s : State) (st : Step) :
    (step s st).proposalCh.offered.map Prod.fst =
      s.proposalCh.offered.map Prod.fst ++ st.proposal?.toList ∧
    (step s st).voteCh.offered.map Prod.fst =
      s.voteCh.offered.map Prod.fst ++ st.vote?.toList := by
  cases st <;> dsimp only [step] <;> repeat' split
  all_goals simp [Step.proposal?, Step.vote?]

/-- Only `AddProposal` and `AddVote` send to the channels of messages. -/
theorem offered_run (l : Launch) (env : Env) (steps : List Step) :
    (run l env steps).proposalCh.offered.map Prod.fst = steps.filterMap Step.proposal? ∧
    (run l env steps).voteCh.offered.map Prod.fst = steps.filterMap Step.vote? := by
  induction steps using List.reverseRecOn with
  | nil => exact ⟨rfl, rfl⟩
  | append_singleton steps st ih =>
    rw [run, List.foldl_append, List.foldl_cons, List.foldl_nil, ← run]
    obtain ⟨hproposal, hvote⟩ := offered_step (run l env steps) st
    rw [hproposal, hvote, ih.1, ih.2, List.filterMap_append, List.filterMap_append]
    constructor
    · cases hst : st.proposal? <;> simp [hst]
    · cases hst : st.vote? <;> simp [hst]

namespace Inv

theorem mem_handled (h : Inv l env s) {t : Tick} (ht : t ∈ s.tockCh.taken) :
    s.hand = some (.timeout t) ∨ .timeout t ∈ s.handled.map Prod.snd := by
  rw [h.timeouts, List.mem_filterMap] at ht
  obtain ⟨input, hinput, htimeout⟩ := ht
  obtain rfl : input = .timeout t := by
    cases input <;> cases htimeout
    rfl
  rcases List.mem_append.mp hinput with hmem | hmem
  · exact .inr hmem
  · exact .inl (Option.mem_toList.mp hmem)

/-- A scheduled timeout waits, was handled or is lost. -/
theorem located (h : Inv l env s) {t : Tick} (ht : s.node.scheduled[t.id]? = some t.info) :
    s.Waiting t ∨ .timeout t ∈ s.handled.map Prod.snd ∨ s.Lost t := by
  by_cases hsent : s.sent ≤ t.id
  · exact .inl (.inl hsent)
  have hoffered : t ∈ s.tickCh.offered.map Prod.fst := by
    rw [h.ticks]
    exact mem_numbered.mpr ⟨by omega, ht⟩
  have hwhere := s.tickCh.perm_offered.mem_iff.mp hoffered
  simp only [List.mem_append] at hwhere
  rcases hwhere with (htaken | hqueue) | hrefused
  · -- the ticker has taken it
    have harmed := h.armed.mem_iff.mp htaken
    simp only [List.mem_append] at harmed
    rcases harmed with (((hstop | htimer) | hcallback) | hdiscard) | htock
    · rcases h.superseded t hstop with hstopped | ⟨t', ht', hlt⟩
      · exact .inr (.inr (.inr (.inr (.inl hstopped))))
      · exact .inr (.inr (.inr (.inr (.inr ⟨t', ht', hlt, (h.of_armed ht').2⟩))))
    · exact .inl (.inr (.inr (.inl (Option.mem_toList.mp htimer))))
    · exact .inl (.inr (.inr (.inr (.inl hcallback))))
    · exact .inr (.inr (.inr (.inr (.inl (h.discarded (List.ne_nil_of_mem hdiscard))))))
    · -- its callback has sent it
      have hback := s.tockCh.perm_offered.mem_iff.mp htock
      simp only [List.mem_append] at hback
      rcases hback with (hback | hqueue) | hrefused
      · rcases h.mem_handled hback with hhand | hhandled
        · exact .inl (.inr (.inr (.inr (.inr (.inr hhand)))))
        · exact .inr (.inl hhandled)
      · exact .inl (.inr (.inr (.inr (.inr (.inl hqueue)))))
      · exact .inr (.inr (.inr (.inl hrefused)))
  · exact .inl (.inr (.inl hqueue))
  · exact .inr (.inr (.inl hrefused))

/-- No scheduled timeout comes back twice. -/
theorem nodup_timeouts (h : Inv l env s) :
    ((s.inputs.filterMap Input.timeout?).map Tick.id).Nodup := by
  have hpairwise := pairwise_numbered s.node.scheduled s.sent
  rw [← h.ticks] at hpairwise
  have htaken : (s.tickCh.taken.map Tick.id).Nodup := by
    have hsub := (List.sublist_append_left _ _).trans s.tickCh.sublist_offered
    exact List.pairwise_map.mpr ((hpairwise.sublist hsub).imp fun hlt => Nat.ne_of_lt hlt)
  have hoffered := (h.armed.map Tick.id).nodup_iff.mp htaken
  rw [List.map_append] at hoffered
  rw [← h.timeouts]
  have hsub := (List.sublist_append_left _ _).trans s.tockCh.sublist_offered
  exact (List.nodup_append.mp hoffered).2.1.sublist (hsub.map Tick.id)

end Inv

/-- **The event loop refines a run.** In every interleaving of the goroutines, the node is
where a run over the events it has handled leaves it. Proposals and votes are handled in the
order in which they were added, each at most once, and each is handled, in hand, buffered or
dropped. A timeout is handled only after the node has scheduled it and once at most; until
then it is on its way, unless a channel was full, the ticker was stopped or a later timeout
has replaced it. -/
theorem refines_run (l : Launch) (env : Env) (steps : List Step) :
    let s := run l env steps
    s.node = l.run env s.events ∧
    Accounts s.proposalCh (steps.filterMap Step.proposal?)
      (s.inputs.filterMap Input.proposal?) ∧
    Accounts s.voteCh (steps.filterMap Step.vote?) (s.inputs.filterMap Input.vote?) ∧
    (∀ pre env' t post, s.handled = pre ++ (env', .timeout t) :: post →
      (l.run env (pre.map fun e => (e.1, e.2.event))).scheduled[t.id]? = some t.info) ∧
    ((s.inputs.filterMap Input.timeout?).map Tick.id).Nodup ∧
    ∀ t, s.node.scheduled[t.id]? = some t.info →
      s.Waiting t ∨ .timeout t ∈ s.handled.map Prod.snd ∨ s.Lost t := by
  intro s
  have h : Inv l env s := inv_run l env steps
  obtain ⟨hproposals, hvotes⟩ := offered_run l env steps
  exact ⟨h.run, accounts hproposals h.proposals, accounts hvotes h.votes, h.caused,
    h.nodup_timeouts, fun _ ht => h.located ht⟩

end

section

attribute [local instance] transparent

/-- Validator 1, whose own vote is not enough. -/
def lateLaunch : Launch :=
  Scenario.launch 1 (Scenario.validatorSet [(1, 1), (2, 9)] Scenario.isOk_weak)

/-- The timeout of `Start` runs all the way round, and a vote is left in its channel. -/
def lateSteps : List Step :=
  [.addVote (Scenario.vote 2 1 .prevote 1 0 none), .schedule, .arm, .fire, .deliver 0,
    .takeTimeout, .work (Scenario.env 1)]

/-- It was scheduled by `Start`, and the vote is accounted for. -/
theorem refines_run_late :
    let s := run lateLaunch (Scenario.env 1) lateSteps
    s.handled.map (fun e => e.2) = [.timeout ⟨0, ⟨1, 0, .propose⟩⟩] ∧
    (lateLaunch.run (Scenario.env 1) []).scheduled[0]? = some ⟨1, 0, .propose⟩ ∧
    Accounts s.voteCh (lateSteps.filterMap Step.vote?) (s.inputs.filterMap Input.vote?) := by
  intro s
  have hhandled : s.handled.map (fun e => e.2) = [.timeout ⟨0, ⟨1, 0, .propose⟩⟩] := by
    decide +kernel
  obtain ⟨-, -, hvotes, hcaused, -, -⟩ := refines_run lateLaunch (Scenario.env 1) lateSteps
  refine ⟨hhandled, ?_, hvotes⟩
  obtain ⟨⟨env', input⟩, hsingle, rfl⟩ := List.map_eq_singleton_iff.mp hhandled
  exact hcaused [] env' _ [] hsingle

end

end EventLoop

end Leaderberry
