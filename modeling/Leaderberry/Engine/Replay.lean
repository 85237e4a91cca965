import Leaderberry.Engine.State
import Leaderberry.Wal.Recovery

/-!
# Replay of the log (`engine/replay.go`)

`replayWAL` reads what follows the EndHeight marker of the previous height and collects it
in a `WALReplayResult`; `replayCatchup` applies the result to a consensus state. The votes
of the result go to the vote sets, the other fields overwrite the round state.

What the collection amounts to is said by `lastState`, `lastProposal` and `lastRound`
(`Collected.replay`): every record overwrites what an earlier one of its kind has set, and
the round is set by three kinds of records, votes among them.
-/

namespace Leaderberry

variable {α : Type} {msgs : List Message}

open Wal RecordStream

/-- The Cramberry encoding of records, and `crc32.ChecksumIEEE`. -/
class MessageCodec where
  marshal : Message → Option Bytes
  unmarshal : Bytes → Option Message
  crc32 : Bytes → BitVec 32
  unmarshal_marshal : ∀ {m : Message} {data : Bytes},
    marshal m = some data → unmarshal data = some m

instance [MessageCodec] : WalCodec Message where
  height := Message.height
  isEndHeight m := m.data = .endHeight
  marshal := MessageCodec.marshal
  unmarshal := MessageCodec.unmarshal
  crc32 := MessageCodec.crc32
  unmarshal_marshal := MessageCodec.unmarshal_marshal

/-- An encoding in one byte, for the records of a run. -/
@[reducible] def tableCodec (table : List Message) : MessageCodec where
  marshal m := (table.idxOf? m).bind fun i => if i < 256 then some [Fin.ofNat 256 i] else none
  unmarshal data :=
    match data with
    | [b] => table[b.val]?
    | _ => none
  crc32 _ := 0
  unmarshal_marshal := fun {m data} h => by
    obtain ⟨i, hi, hdata⟩ := Option.bind_eq_some_iff.mp h
    obtain ⟨hlen, heq, -⟩ := List.findIdx?_eq_some_iff_getElem.mp hi
    split at hdata
    · rename_i hlt
      cases hdata
      simp only [Fin.val_ofNat, Nat.mod_eq_of_lt hlt]
      rw [List.getElem?_eq_getElem hlen]
      simpa using heq
    · cases hdata

structure WALReplayResult where
  height : Int
  round : Int
  step : RoundStep
  messagesReplayed : Nat
  proposal : Option Proposal
  votes : List Vote
  foundEndHeight : Bool
  lockedRound : Int
  lockedBlockHash : Option Hash
  validRound : Int
  validBlockHash : Option Hash

inductive ReplayError where
  | noWAL
  | searchFailed (e : WalError)
  | readFailed (e : WalError)
deriving DecidableEq

namespace WALReplayResult

/-- The result before the first record; fields that are not set have Go's zero values. -/
def init (targetHeight : Int) : WALReplayResult where
  height := targetHeight
  round := 0
  step := .newHeight
  messagesReplayed := 0
  proposal := none
  votes := []
  foundEndHeight := false
  lockedRound := 0
  lockedBlockHash := none
  validRound := 0
  validBlockHash := none

/-- `replayMessage`, with `replayProposal`, `replayVote` and `replayState`. -/
def replayMessage (result : WALReplayResult) (m : Message) : WALReplayResult :=
  match m.data with
  | .proposal p => { result with proposal := some p, round := m.round }
  | .vote v => { result with votes := result.votes ++ [v], round := m.round }
  | .state s =>
    { result with
      height := s.height
      round := s.round
      step := s.step
      lockedRound := s.lockedRound
      lockedBlockHash := s.lockedBlockHash
      validRound := s.validRound
      validBlockHash := s.validBlockHash }
  | _ => result

/-- A record of the target height, counted. -/
def replay (result : WALReplayResult) (m : Message) : WALReplayResult :=
  { result.replayMessage m with messagesReplayed := result.messagesReplayed + 1 }

end WALReplayResult

/-- The loop of `ReplayWAL` over what the reader returns: messages, then the end of the log
or an error. -/
def replayRecords (targetHeight : Int) :
    List Message → Option WalError → WALReplayResult → Except ReplayError WALReplayResult
  | [], none, result => .ok result
  | [], some e, _ => .error (.readFailed e)
  | m :: rest, e, result =>
    if m.height ≠ targetHeight then replayRecords targetHeight rest e result
    else if m.data = .endHeight then .ok { result.replay m with foundEndHeight := true }
    else replayRecords targetHeight rest e (result.replay m)

/-- `ReplayWAL`, on a state with a WAL. The search leaves the log with its buffer flushed. -/
def replayWAL [MessageCodec] (targetHeight : Int) (w : FileWAL Message) :
    FileWAL Message × Except ReplayError WALReplayResult :=
  match w.searchForEndHeight (targetHeight - 1) with
  | (w, .error e) => (w, .error (.searchFailed e))
  | (w, .ok none) => (w, .ok (.init targetHeight))
  | (w, .ok (some reader)) =>
    (w, replayRecords targetHeight ((decoder Message).read reader).1
      ((decoder Message).read reader).2 (.init targetHeight))

namespace ConsensusState

variable [Externals]

/-- The block of the replayed proposal, if it has the given hash. -/
def restoredBlock (p : Option Proposal) (hash : Option Hash) (old : Option Block) :
    Option Block :=
  match p with
  | some p => if hash = some (blockHash p.block) then some p.block else old
  | none => old

/-- The assignments of `ReplayCatchup`. Before `Start` there is no vote set that could
take the votes. -/
def restore (cs : ConsensusState) (result : WALReplayResult) : ConsensusState :=
  { cs with
    height := result.height
    round := result.round
    step := result.step
    lockedRound := result.lockedRound
    validRound := result.validRound
    proposal := result.proposal.or cs.proposal
    proposalBlock := (result.proposal.map Proposal.block).or cs.proposalBlock
    lockedBlock := restoredBlock result.proposal result.lockedBlockHash cs.lockedBlock
    validBlock := restoredBlock result.proposal result.validBlockHash cs.validBlock
    votes :=
      if cs.started then
        result.votes.foldl (fun votes v => (votes.addVoteForReplay v).2) cs.votes
      else cs.votes }

/-- `ReplayCatchup`. -/
def replayCatchup [MessageCodec] (targetHeight : Int) (w : FileWAL Message)
    (cs : ConsensusState) : ConsensusState × Except ReplayError Unit :=
  if !cs.hasWal then (cs, .error .noWAL)
  else
    match (replayWAL targetHeight w).2 with
    | .error e => (cs, .error e)
    | .ok result =>
      if result.messagesReplayed = 0 then (cs, .ok ()) else (cs.restore result, .ok ())

end ConsensusState

/-! ## What the loop collects -/

namespace Message

def proposal? (m : Message) : Option Proposal :=
  match m.data with
  | .proposal p => some p
  | _ => none

def vote? (m : Message) : Option Vote :=
  match m.data with
  | .vote v => some v
  | _ => none

def state? (m : Message) : Option ConsensusStateData :=
  match m.data with
  | .state s => some s
  | _ => none

/-- The round that the record sets. -/
def round? (m : Message) : Option Int :=
  match m.data with
  | .proposal _ => some m.round
  | .vote _ => some m.round
  | .state s => some s.round
  | _ => none

end Message

/-- What the last record of a kind says. -/
def lastOf {α : Type} (kind : Message → Option α) (msgs : List Message) : Option α :=
  (msgs.filterMap kind).getLast?

abbrev lastProposal (msgs : List Message) : Option Proposal := lastOf Message.proposal? msgs

abbrev lastState (msgs : List Message) : Option ConsensusStateData := lastOf Message.state? msgs

abbrev lastRound (msgs : List Message) : Option Int := lastOf Message.round? msgs

theorem lastOf_append (kind : Message → Option α) (msgs₁ msgs₂ : List Message) :
    lastOf kind (msgs₁ ++ msgs₂) = (lastOf kind msgs₂).or (lastOf kind msgs₁) := by
  unfold lastOf
  rw [List.filterMap_append, List.getLast?_append]

theorem lastOf_concat (kind : Message → Option α) (msgs : List Message) (m : Message) :
    lastOf kind (msgs ++ [m]) = (kind m).or (lastOf kind msgs) := by
  rw [lastOf_append]
  congr 1
  cases hm : kind m <;> simp [lastOf, hm]

theorem lastOf_eq_none {kind : Message → Option α} (h : ∀ m ∈ msgs, kind m = none) :
    lastOf kind msgs = none := by
  unfold lastOf
  rw [List.filterMap_eq_nil_iff.mpr h, List.getLast?_nil]

theorem lastOf_append_of_none {kind : Message → Option α} {msgs₁ msgs₂ : List Message}
    (h : ∀ m ∈ msgs₂, kind m = none) : lastOf kind (msgs₁ ++ msgs₂) = lastOf kind msgs₁ := by
  rw [lastOf_append, lastOf_eq_none h, Option.none_or]

/-- Everything but the votes. -/
def nonVotes (msgs : List Message) : List Message := msgs.filter fun m => m.vote?.isNone

theorem nonVotes_append (msgs₁ msgs₂ : List Message) :
    nonVotes (msgs₁ ++ msgs₂) = nonVotes msgs₁ ++ nonVotes msgs₂ :=
  List.filter_append ..

theorem nonVotes_eq_nil (h : ∀ m ∈ msgs, ∃ v, m = .ofVote v) :
    nonVotes msgs = [] := by
  refine List.filter_eq_nil_iff.mpr fun m hm => ?_
  obtain ⟨v, rfl⟩ := h m hm
  exact Bool.false_ne_true

/-- Votes do not matter for the other kinds. -/
theorem lastOf_nonVotes {kind : Message → Option α} (hkind : ∀ m, m.vote? ≠ none → kind m = none)
    (msgs : List Message) :
    lastOf kind (nonVotes msgs) = lastOf kind msgs := by
  unfold lastOf nonVotes
  rw [List.filterMap_filter]
  congr 2
  funext m
  split
  · rfl
  · rename_i hvote
    exact (hkind m fun hnone => hvote (by rw [hnone]; rfl)).symm

theorem lastOf_congr {kind : Message → Option α} (hkind : ∀ m, m.vote? ≠ none → kind m = none)
    {msgs₁ msgs₂ : List Message} (h : nonVotes msgs₁ = nonVotes msgs₂) :
    lastOf kind msgs₁ = lastOf kind msgs₂ := by
  rw [← lastOf_nonVotes hkind, h, lastOf_nonVotes hkind]

theorem Message.not_vote {m : Message} (h : m.vote? ≠ none) :
    m.proposal? = none ∧ m.state? = none := by
  unfold Message.vote? at h
  unfold Message.proposal? Message.state?
  split at h
  · rename_i v hv
    rw [hv]
    exact ⟨rfl, rfl⟩
  · exact absurd rfl h

/-- The result holds what the last record of each kind says. -/
structure Collected (targetHeight : Int) (msgs : List Message) (result : WALReplayResult) :
    Prop where
  height : result.height = ((lastState msgs).map ConsensusStateData.height).getD targetHeight
  round : result.round = (lastRound msgs).getD 0
  step : result.step = ((lastState msgs).map ConsensusStateData.step).getD .newHeight
  messagesReplayed : result.messagesReplayed = msgs.length
  proposal : result.proposal = lastProposal msgs
  lockedRound : result.lockedRound =
    ((lastState msgs).map ConsensusStateData.lockedRound).getD 0
  lockedBlockHash : result.lockedBlockHash =
    (lastState msgs).bind ConsensusStateData.lockedBlockHash
  validRound : result.validRound = ((lastState msgs).map ConsensusStateData.validRound).getD 0
  validBlockHash : result.validBlockHash =
    (lastState msgs).bind ConsensusStateData.validBlockHash

theorem Collected.init (targetHeight : Int) : Collected targetHeight [] (.init targetHeight) where
  height := rfl
  round := rfl
  step := rfl
  messagesReplayed := rfl
  proposal := rfl
  lockedRound := rfl
  lockedBlockHash := rfl
  validRound := rfl
  validBlockHash := rfl

theorem Collected.replay {targetHeight : Int} {result : WALReplayResult}
    (h : Collected targetHeight msgs result) (m : Message) :
    Collected targetHeight (msgs ++ [m]) (result.replay m) := by
  obtain ⟨height, round, data⟩ := m
  -- A field is overwritten by the records of its own kind and kept by the others.
  cases data <;> constructor <;>
    simp [WALReplayResult.replay, WALReplayResult.replayMessage, lastOf_concat,
      Message.proposal?, Message.state?, Message.round?, h.height, h.round, h.step,
      h.messagesReplayed, h.proposal, h.lockedRound, h.lockedBlockHash, h.validRound,
      h.validBlockHash]

/-! ## Which records are replayed -/

/-- The record ends the target height. -/
def Message.ends (targetHeight : Int) (m : Message) : Bool :=
  m.height = targetHeight && m.data = .endHeight

/-- The records of the target height, up to the one that ends it. -/
def replayed (targetHeight : Int) : List Message → List Message
  | [] => []
  | m :: rest =>
    if m.height ≠ targetHeight then replayed targetHeight rest
    else if m.data = .endHeight then [m]
    else m :: replayed targetHeight rest

theorem nonVotes_replayed (targetHeight : Int) (msgs : List Message) :
    nonVotes (replayed targetHeight msgs) = replayed targetHeight (nonVotes msgs) := by
  induction msgs with
  | nil => rfl
  | cons m rest ih =>
    have hcons : ∀ l, nonVotes (m :: l) =
        if m.vote?.isNone then m :: nonVotes l else nonVotes l := fun l => List.filter_cons ..
    rw [replayed, hcons]
    by_cases hheight : m.height = targetHeight
    · rw [if_neg (not_not.mpr hheight)]
      by_cases hdata : m.data = .endHeight
      · have hvote : m.vote?.isNone = true := by
          rw [Message.vote?, hdata]
          rfl
        rw [if_pos hdata, hcons, if_pos hvote, if_pos hvote, replayed,
          if_neg (not_not.mpr hheight), if_pos hdata]
        rfl
      · rw [if_neg hdata, hcons, ih]
        split
        · rw [replayed, if_neg (not_not.mpr hheight), if_neg hdata]
        · rfl
    · rw [if_pos hheight, ih]
      split
      · rw [replayed, if_pos hheight]
      · rfl

/-- The loop succeeds if it meets the end of the height or the end of the log. -/
theorem replayRecords_cases {targetHeight : Int} {e : Option WalError} :
    ∀ (msgs : List Message) {before : List Message} {result : WALReplayResult},
    Collected targetHeight before result →
    (∃ result', replayRecords targetHeight msgs e result = .ok result' ∧
      Collected targetHeight (before ++ replayed targetHeight msgs) result' ∧
      (e = none ∨ msgs.any (Message.ends targetHeight) = true)) ∨
    (∃ error, e = some error ∧ msgs.any (Message.ends targetHeight) = false ∧
      replayRecords targetHeight msgs e result = .error (.readFailed error))
  | [], before, result, h => by
    cases e with
    | none => exact .inl ⟨result, rfl, by simpa [replayed] using h, .inl rfl⟩
    | some error => exact .inr ⟨error, rfl, rfl, rfl⟩
  | m :: rest, before, result, h => by
    rw [replayRecords, replayed]
    by_cases hheight : m.height = targetHeight
    · rw [if_neg (not_not.mpr hheight), if_neg (not_not.mpr hheight)]
      by_cases hdata : m.data = .endHeight
      · rw [if_pos hdata, if_pos hdata]
        refine .inl ⟨_, rfl, ?_, .inr (by simp [Message.ends, hheight, hdata])⟩
        exact { h.replay m with }
      · rw [if_neg hdata, if_neg hdata]
        have := replayRecords_cases (e := e) rest (h.replay m)
        simpa [Message.ends, hdata] using this
    · rw [if_pos hheight, if_pos hheight]
      have := replayRecords_cases (e := e) rest h
      simpa [Message.ends, hheight] using this

/-! ## What is restored -/

section

variable [Externals] {targetHeight : Int} {cs : ConsensusState} {low c : Nat} {l₀ : Log Message}

variable (cs) in
/-- **A log is replayed from the records that follow the marker in its segment.** -/
theorem replayCatchup_recovered [MessageCodec] (hwal : cs.hasWal = true) {lg : Log Message}
    {writes : List (Message × Bool)} (h : Crashed low l₀ writes lg c)
    (targetHeight maxSegSize : Int) :
    let log := lg.recovered c maxSegSize
    let msgs := replayed targetHeight (log.sinceMarker (targetHeight - 1))
    ∃ result, Collected targetHeight msgs result ∧
      cs.replayCatchup targetHeight log.wal =
        (if msgs = [] then cs else cs.restore result, .ok ()) := by
  intro log msgs
  have hreplay : (replayWAL targetHeight log.wal).2 =
      replayRecords targetHeight (log.sinceMarker (targetHeight - 1)) none
        (.init targetHeight) := by
    unfold replayWAL
    cases hresult : log.wal.searchForEndHeight (targetHeight - 1) with
    | mk w found =>
      rcases h.laid_end.recovered_search h.readable_journal h.number h.cut (targetHeight - 1) with
        ⟨hnone, hsearch⟩ | ⟨reader, hsearch, hread⟩
      · rw [hresult] at hsearch
        cases hsearch
        rw [Log.sinceMarker, hnone]
        rfl
      · rw [hresult] at hsearch
        cases hsearch
        dsimp only
        rw [hread]
  rcases replayRecords_cases (e := none) (log.sinceMarker (targetHeight - 1))
    (.init targetHeight) with ⟨result, hok, hcollected, -⟩ | ⟨error, herror, -⟩
  · rw [List.nil_append] at hcollected
    refine ⟨result, hcollected, ?_⟩
    unfold ConsensusState.replayCatchup
    rw [hwal, hreplay, hok]
    simp only [Bool.not_true, Bool.false_eq_true, if_false, hcollected.messagesReplayed,
      List.length_eq_zero_iff]
    split <;> rfl
  · cases herror

section

omit [Externals]

theorem endsHeight_ofEndHeight [MessageCodec] (g : Int) :
    FileWAL.endsHeight g (Message.ofEndHeight g) = true := by
  simp [FileWAL.endsHeight, WalCodec.isEndHeight, WalCodec.height, Message.ofEndHeight]

theorem not_vote_of_endsHeight [MessageCodec] {g : Int} {m : Message}
    (h : FileWAL.endsHeight g m = true) : m.vote?.isNone = true := by
  simp only [FileWAL.endsHeight, WalCodec.isEndHeight, Bool.and_eq_true, decide_eq_true_eq] at h
  rw [Message.vote?, h.1]
  rfl

/-- The records of the height that are replayed. -/
def sinceEnd [MessageCodec] (targetHeight : Int) (msgs : List Message) : List Message :=
  replayed targetHeight (afterFirst (FileWAL.endsHeight (targetHeight - 1)) msgs)

/-- Of the other records the votes hide nothing. -/
theorem nonVotes_sinceEnd [MessageCodec] (targetHeight : Int) (msgs : List Message) :
    nonVotes (sinceEnd targetHeight msgs) = sinceEnd targetHeight (nonVotes msgs) := by
  unfold sinceEnd
  rw [nonVotes_replayed]
  congr 1
  exact filter_afterFirst (fun m hm => not_vote_of_endsHeight hm) msgs

/-- If only votes are written without a sync, a crash loses nothing else. -/
theorem Wal.Crashed.nonVotes_eq [MessageCodec] {l : Log Message} {writes : List (Message × Bool)}
    (h : Crashed low l₀ writes l c) (hunsynced : ∀ m, (m, false) ∈ writes → ∃ v, m = .ofVote v) :
    nonVotes (fullRecords c l.last) = nonVotes l.last := by
  obtain ⟨lost, hlast, hlost⟩ := h.lost
  conv_rhs => rw [hlast]
  rw [nonVotes_append, nonVotes_eq_nil fun m hm => hunsynced m (hlost m hm), List.append_nil]

/-- A marker is not a vote, so a crash does not lose it. -/
theorem Wal.Crashed.marker_mem [MessageCodec] {l : Log Message} {writes : List (Message × Bool)}
    (h : Crashed low l₀ writes l c) (hunsynced : ∀ m, (m, false) ∈ writes → ∃ v, m = .ofVote v)
    {g : Int} (hmarker : .ofEndHeight g ∈ l.last) :
    ∃ m ∈ fullRecords c l.last, FileWAL.endsHeight g m = true := by
  have hmem : Message.ofEndHeight g ∈ nonVotes l.last := List.mem_filter.mpr ⟨hmarker, rfl⟩
  rw [← h.nonVotes_eq hunsynced] at hmem
  exact ⟨_, (List.mem_filter.mp hmem).1, endsHeight_ofEndHeight g⟩

end

/-- The lock on a block with hash `x` in round `r`. -/
def ConsensusState.LockedOn (cs : ConsensusState) (r : Int) (x : Hash) : Prop :=
  cs.lockedRound = r ∧ cs.lockedBlock.map blockHash = some x

/-- The lock comes back if the last State record has it and the last proposal is for its
block. -/
theorem lockedOn_restore_iff {msgs : List Message} {result : WALReplayResult}
    (hc : Collected targetHeight msgs result) (hfresh : cs.lockedBlock = none) {r : Int}
    {x : Hash} :
    (cs.restore result).LockedOn r x ↔
      (∃ s, lastState msgs = some s ∧ s.lockedRound = r ∧ s.lockedBlockHash = some x) ∧
        ∃ p, lastProposal msgs = some p ∧ blockHash p.block = x := by
  have hround : (cs.restore result).lockedRound = result.lockedRound := rfl
  have hblock : (cs.restore result).lockedBlock =
      ConsensusState.restoredBlock result.proposal result.lockedBlockHash none := by
    rw [← hfresh]
    rfl
  unfold ConsensusState.LockedOn
  rw [hround, hblock, hc.lockedRound, hc.proposal, hc.lockedBlockHash]
  unfold ConsensusState.restoredBlock
  cases lastState msgs with
  | none => cases lastProposal msgs <;> simp
  | some s =>
    cases lastProposal msgs with
    | none => simp
    | some p =>
      by_cases hhash : s.lockedBlockHash = some (blockHash p.block)
      · simp only [Option.map_some, Option.getD_some, Option.bind_some, hhash, if_true,
          Option.some.injEq, exists_eq_left']
        exact ⟨fun h => ⟨⟨h.1, h.2⟩, h.2⟩, fun h => ⟨h.1.1, h.2⟩⟩
      · simp only [Option.map_some, Option.getD_some, Option.bind_some, hhash, if_false,
          Option.map_none, Option.some.injEq, exists_eq_left', reduceCtorEq, and_false, false_iff]
        rintro ⟨⟨-, hs⟩, hp⟩
        exact hhash (hs.trans (congrArg some hp.symm))

end

end Leaderberry
