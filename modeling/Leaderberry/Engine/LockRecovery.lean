import Leaderberry.Engine.Replay
import Leaderberry.Engine.Scenario
import Leaderberry.Engine.WriteAhead
import Leaderberry.Wal.Recovery

/-!
# Recovery of the lock

What a node writes to its log is in its trace (`Node.walWrites`). `Recorded` says what is in
the log of a running node: the last State record of the height has the lock, everything but
received votes is synced, and nothing of a height comes before the end of the previous one.

So the State record of a lock is always found. The block is not: `ReplayCatchup` takes it
from the last Proposal record, which is the one of the lock only if no other proposal was
accepted since (`lock_survives_iff`).
-/

namespace Leaderberry

open Wal RecordStream

/-! ## The records of a node -/

/-- The record that the action wrote, and whether it was synced. -/
def Action.write? : Action → Option (Message × Bool)
  | .walWrite m sync => some (m, sync)
  | _ => none

/-- The writes of a node, oldest first. -/
def Node.walWrites (n : Node) : List (Message × Bool) :=
  (n.trace.filterMap fun x => x.2.write?).reverse

def Node.walRecords (n : Node) : List Message := n.walWrites.map Prod.fst

/-- The records of a height. -/
def atHeight (height : Int) (msgs : List Message) : List Message :=
  msgs.filter fun m => m.height = height

theorem atHeight_append (height : Int) (msgs₁ msgs₂ : List Message) :
    atHeight height (msgs₁ ++ msgs₂) = atHeight height msgs₁ ++ atHeight height msgs₂ :=
  List.filter_append ..

theorem mem_atHeight {height : Int} {msgs : List Message} {m : Message} :
    m ∈ atHeight height msgs ↔ m ∈ msgs ∧ m.height = height := by
  simp [atHeight]

theorem Node.walWrites_append {n m : Node} {l : List (ConsensusState × Action)}
    (h : m.trace = l ++ n.trace) :
    m.walWrites = n.walWrites ++ (l.filterMap fun x => x.2.write?).reverse := by
  unfold Node.walWrites
  rw [h, List.filterMap_append, List.reverse_append]

/-- The end of a height comes after the other records of the height, votes apart. -/
def Message.Before (x y : Message) : Prop :=
  y.data = .endHeight → x.vote? = none → x.height ≤ y.height

section

variable [Externals] {n m : Node} {msgs : List Message}

/-- The order of the records of a node with a WAL. -/
structure Ledger (n : Node) : Prop where
  hasWal : n.cs.hasWal = true
  unsynced : ∀ m, (m, false) ∈ n.walWrites → ∃ v, m = .ofVote v
  below : ∀ m ∈ n.walRecords, m.vote? = none → m.height ≤ n.cs.height
  ended : ∀ m ∈ n.walRecords, m.data = .endHeight → m.height < n.cs.height
  ordered : n.walRecords.Pairwise Message.Before

/-- What a node with a WAL has in its log. -/
structure Recorded (n : Node) : Prop extends Ledger n where
  proposed : n.cs.lockedBlock ≠ none ∨ n.cs.proposalBlock ≠ none →
    ∃ p, .ofProposal p ∈ n.walRecords ∧ p.height = n.cs.height
  lock : (∀ s, n.panicked ≠ some (.walWrite (.ofState s))) →
    ∀ block, n.cs.lockedBlock = some block →
      ∃ s, lastState (atHeight n.cs.height n.walRecords) = some s ∧
        s.lockedRound = n.cs.lockedRound ∧ s.lockedBlockHash = some (blockHash block)

section

omit [Externals]

theorem Node.walRecords_append {new : List (Message × Bool)}
    (h : m.walWrites = n.walWrites ++ new) :
    m.walRecords = n.walRecords ++ new.map Prod.fst := by
  rw [Node.walRecords, h, List.map_append]
  rfl

/-- Votes, and other records of the height that do not end it, may be added. -/
theorem Ledger.extend {n m : Node} (h : Ledger n) (hwal : m.cs.hasWal = n.cs.hasWal)
    (hheight : m.cs.height = n.cs.height) {new : List (Message × Bool)}
    (hwrites : m.walWrites = n.walWrites ++ new)
    (hnew : ∀ x ∈ new, x.1.data ≠ .endHeight ∧
      ((∃ v, x.1 = .ofVote v) ∨ x.2 = true ∧ x.1.height = n.cs.height)) : Ledger m := by
  have hrecords := Node.walRecords_append hwrites
  have hnotEnd : ∀ x ∈ new.map Prod.fst, x.data ≠ .endHeight := by
    intro x hx
    obtain ⟨y, hy, rfl⟩ := List.mem_map.mp hx
    exact (hnew y hy).1
  exact
    { hasWal := hwal.trans h.hasWal
      unsynced := fun x hx => by
        rw [hwrites] at hx
        rcases List.mem_append.mp hx with hx | hx
        · exact h.unsynced x hx
        · rcases (hnew _ hx).2 with hv | ⟨hsync, -⟩
          · exact hv
          · cases hsync
      below := fun x hx hvote => by
        rw [hrecords] at hx
        rw [hheight]
        rcases List.mem_append.mp hx with hx | hx
        · exact h.below x hx hvote
        · obtain ⟨y, hy, rfl⟩ := List.mem_map.mp hx
          rcases (hnew y hy).2 with ⟨v, hv⟩ | ⟨-, hy⟩
          · rw [hv] at hvote
            cases hvote
          · exact hy.le
      ended := fun x hx hend => by
        rw [hrecords] at hx
        rw [hheight]
        rcases List.mem_append.mp hx with hx | hx
        · exact h.ended x hx hend
        · exact absurd hend (hnotEnd x hx)
      ordered := by
        rw [hrecords]
        refine List.pairwise_append.mpr ⟨h.ordered, ?_, fun x _ y hy hend =>
          absurd hend (hnotEnd y hy)⟩
        exact List.Pairwise.imp_of_mem (fun _ hy _ hend => absurd hend (hnotEnd _ hy))
          (List.pairwise_of_forall (R := fun _ _ => True) fun _ _ => trivial) }

/-- The record that ends the height may be added by a node that goes on to the next one. -/
theorem Ledger.endHeight (h : Ledger n) (hwal : m.cs.hasWal = n.cs.hasWal)
    (hheight : m.cs.height = n.cs.height + 1)
    (hwrites : m.walWrites = n.walWrites ++ [(.ofEndHeight n.cs.height, true)]) : Ledger m := by
  have hrecords := Node.walRecords_append hwrites
  exact
    { hasWal := hwal.trans h.hasWal
      unsynced := fun x hx => by
        rw [hwrites] at hx
        rcases List.mem_append.mp hx with hx | hx
        · exact h.unsynced x hx
        · cases List.mem_singleton.mp hx
      below := fun x hx hvote => by
        rw [hrecords] at hx
        rw [hheight]
        rcases List.mem_append.mp hx with hx | hx
        · have := h.below x hx hvote
          omega
        · rw [List.mem_singleton.mp hx]
          exact (lt_add_one _).le
      ended := fun x hx hend => by
        rw [hrecords] at hx
        rw [hheight]
        rcases List.mem_append.mp hx with hx | hx
        · have := h.ended x hx hend
          omega
        · rw [List.mem_singleton.mp hx]
          exact lt_add_one _
      ordered := by
        rw [hrecords]
        refine List.pairwise_append.mpr ⟨h.ordered, List.pairwise_singleton _ _, ?_⟩
        intro x hx y hy _ hvote
        rw [List.mem_singleton.mp hy]
        exact h.below x hx hvote }

end

namespace Recorded

variable {n m : Node} {block : Block}

omit [Externals] in
/-- The writes of a commit that goes through. -/
theorem walWrites_commit {commit : Commit} {newSet : ValidatorSet} {updates : List ValidatorUpdate}
    (hwal : n.cs.hasWal = true) :
    (Node.advanceHeight commit newSet { n.setStep .commit with
      trace := syncEntry (n.setStep .commit).cs (.ofEndHeight n.cs.height) ++
        (applyEntry (n.setStep .commit).cs block commit updates ++ n.trace) }).walWrites =
      n.walWrites ++ [(.ofEndHeight n.cs.height, true)] := by
  have hsync : syncEntry (n.setStep .commit).cs (.ofEndHeight n.cs.height) =
      [((n.setStep .commit).cs, .walWrite (.ofEndHeight n.cs.height) true)] := if_pos hwal
  have happly : (applyEntry (n.setStep .commit).cs block commit updates).filterMap
      (fun x => x.2.write?) = [] := by
    refine List.filterMap_eq_nil_iff.mpr fun x hx => ?_
    rw [mem_applyEntry hx]
    rfl
  have hwrites : (syncEntry (n.setStep .commit).cs (.ofEndHeight n.cs.height) ++
      (applyEntry (n.setStep .commit).cs block commit updates ++ n.trace)).filterMap
        (fun x => x.2.write?) =
      (.ofEndHeight n.cs.height, true) :: n.trace.filterMap fun x => x.2.write? := by
    rw [List.filterMap_append, List.filterMap_append, happly, hsync]
    rfl
  unfold Node.advanceHeight
  dsimp only
  split
  · show (List.filterMap _ _).reverse = _
    rw [hwrites, List.reverse_cons]
    rfl
  · show (List.filterMap _ (_ ++ _)).reverse = _
    rw [hwrites, List.reverse_cons]
    rfl

variable (h : Recorded n)

include h

/-- Votes, and proposals of the height, may be added. -/
theorem extend (hpanic : m.panicked = n.panicked ∨ n.panicked = none)
    (hwal : m.cs.hasWal = n.cs.hasWal) (hheight : m.cs.height = n.cs.height)
    (hlock : m.cs.lockedBlock = none ∨
      m.cs.lockedBlock = n.cs.lockedBlock ∧ m.cs.lockedRound = n.cs.lockedRound)
    {new : List (Message × Bool)} (hwrites : m.walWrites = n.walWrites ++ new)
    (hnew : ∀ x ∈ new, (∃ v, x.1 = .ofVote v) ∨
      ∃ p, x = (.ofProposal p, true) ∧ p.height = n.cs.height)
    (hproposed : m.cs.proposalBlock ≠ none → n.cs.proposalBlock ≠ none ∨
      ∃ p, .ofProposal p ∈ m.walRecords ∧ p.height = n.cs.height) : Recorded m := by
  have hrecords := Node.walRecords_append hwrites
  have hledger : Ledger m := by
    refine h.toLedger.extend hwal hheight hwrites fun x hx => ?_
    rcases hnew x hx with ⟨v, hv⟩ | ⟨p, rfl, hp⟩
    · exact ⟨by rw [hv]; nofun, .inl ⟨v, hv⟩⟩
    · exact ⟨nofun, .inr ⟨rfl, hp⟩⟩
  refine { hledger with proposed := fun hor => ?_, lock := fun hwritten block hblock => ?_ }
  · have hold : n.cs.lockedBlock ≠ none ∨ n.cs.proposalBlock ≠ none →
        ∃ p, .ofProposal p ∈ m.walRecords ∧ p.height = m.cs.height := by
      intro hn
      obtain ⟨p, hp, hph⟩ := h.proposed hn
      rw [hrecords, hheight]
      exact ⟨p, List.mem_append_left _ hp, hph⟩
    rcases hor with hlocked | hblock
    · rcases hlock with hnone | ⟨hsame, -⟩
      · exact absurd hnone hlocked
      · exact hold (.inl (hsame ▸ hlocked))
    · rcases hproposed hblock with hn | ⟨p, hp, hph⟩
      · exact hold (.inr hn)
      · exact ⟨p, hp, hph.trans hheight.symm⟩
  · rcases hlock with hnone | ⟨hsame, hround⟩
    · rw [hnone] at hblock
      cases hblock
    · have hbefore : ∀ s, n.panicked ≠ some (.walWrite (.ofState s)) := by
        rcases hpanic with hpanic | halive
        · rwa [hpanic] at hwritten
        · rw [halive]
          exact fun s h => by cases h
      obtain ⟨s, hs, hlocked⟩ := h.lock hbefore block (hsame ▸ hblock)
      refine ⟨s, ?_, by rw [hround]; exact hlocked⟩
      rw [hrecords, hheight, atHeight_append]
      refine (lastOf_append_of_none fun x hx => ?_).trans hs
      obtain ⟨y, hy, rfl⟩ := List.mem_map.mp (mem_atHeight.mp hx).1
      rcases hnew y hy with ⟨v, hv⟩ | ⟨p, rfl, -⟩
      · rw [hv]
        rfl
      · rfl

/-- Actions that write nothing may be added. -/
theorem quiet (hpanic : m.panicked = n.panicked ∨ n.panicked = none)
    (hwal : m.cs.hasWal = n.cs.hasWal) (hheight : m.cs.height = n.cs.height)
    (hlock : m.cs.lockedBlock = none ∨
      m.cs.lockedBlock = n.cs.lockedBlock ∧ m.cs.lockedRound = n.cs.lockedRound)
    (hproposed : m.cs.proposalBlock ≠ none → n.cs.proposalBlock ≠ none)
    {l : List (ConsensusState × Action)} (htrace : m.trace = l ++ n.trace)
    (hl : ∀ x ∈ l, x.2.write? = none) : Recorded m := by
  have hwrites : m.walWrites = n.walWrites ++ [] := by
    rw [Node.walWrites_append htrace, List.filterMap_eq_nil_iff.mpr hl]
    rfl
  exact h.extend hpanic hwal hheight hlock hwrites (by simp) fun hm => .inl (hproposed hm)

theorem emit {a : Action} (ha : a.write? = none) : Recorded (n.emit a) :=
  h.quiet (.inl rfl) rfl rfl (.inr ⟨rfl, rfl⟩) id (l := [(n.cs, a)]) rfl (by simpa using ha)

theorem setVotes (votes : HeightVoteSet) : Recorded (n.setVotes votes) :=
  h.quiet (.inl rfl) rfl rfl (.inr ⟨rfl, rfl⟩) id (l := []) rfl (by simp)

theorem halt (halive : n.panicked = none) (p : Panic) : Recorded (n.halt p) :=
  h.quiet (.inr halive) rfl rfl (.inr ⟨rfl, rfl⟩) id (l := []) rfl (by simp)

theorem startRound (r : Int) : Recorded (n.startRound r) :=
  h.quiet (.inl rfl) rfl rfl (.inr ⟨rfl, rfl⟩) (fun hm => absurd rfl hm)
    (l := [_]) (n.startRound_trace r) (by simp [Action.write?])

theorem raiseRound (r : Int) : Recorded (n.raiseRound r) := by
  unfold Node.raiseRound
  split
  · exact h.quiet (.inl rfl) rfl rfl (.inr ⟨rfl, rfl⟩) id (l := []) rfl (by simp)
  · exact h

theorem startPrevote : Recorded n.startPrevote := by
  have hstep : Recorded (n.setStep .prevote) :=
    h.quiet (.inl rfl) rfl rfl (.inr ⟨rfl, rfl⟩) id (l := []) rfl (by simp)
  rcases n.startPrevote_cases with ⟨-, heq⟩ | ⟨-, heq⟩
  · rw [heq]
    exact hstep
  · rw [heq]
    exact hstep.quiet (.inl rfl) rfl rfl (.inl rfl) id (l := [_]) rfl (by simp [Action.write?])

/-- A vote, or a proposal of the height, is written. -/
theorem walWrite (halive : n.panicked = none) (env : Env) {msg : Message} {sync : Bool}
    (hmsg : (∃ v, msg = .ofVote v) ∨
      ∃ p, (msg, sync) = (.ofProposal p, true) ∧ p.height = n.cs.height) :
    Recorded (n.walWrite env msg sync) ∧ ((n.walWrite env msg sync).panicked = none →
      msg ∈ (n.walWrite env msg sync).walRecords) := by
  unfold Node.walWrite
  rw [h.hasWal]
  simp only [Bool.not_true, Bool.false_eq_true, if_false]
  split
  · have hwrites : (n.emit (.walWrite msg sync)).walWrites = n.walWrites ++ [(msg, sync)] :=
      Node.walWrites_append (l := [(n.cs, .walWrite msg sync)]) rfl
    refine ⟨h.extend (.inl rfl) rfl rfl (.inr ⟨rfl, rfl⟩) hwrites ?_ .inl, fun _ => ?_⟩
    · intro x hx
      rw [List.mem_singleton.mp hx]
      exact hmsg
    · rw [Node.walRecords, hwrites]
      simp
  · exact ⟨h.halt halive _, nofun⟩

theorem takeProposal {p : Proposal} {own : Bool} (hp : .ofProposal p ∈ n.walRecords)
    (hheight : p.height = n.cs.height) : Recorded (n.takeProposal p own) := by
  obtain ⟨l, htrace, hl⟩ : ∃ l, (n.takeProposal p own).trace = l ++ n.trace ∧
      ∀ x ∈ l, x.2.write? = none := by
    rw [Node.takeProposal_trace]
    split
    · exact ⟨[_, _], rfl, by simp [Action.write?]⟩
    · exact ⟨[_], rfl, by simp [Action.write?]⟩
  have hwrites : (n.takeProposal p own).walWrites = n.walWrites ++ [] := by
    rw [Node.walWrites_append htrace, List.filterMap_eq_nil_iff.mpr hl]
    rfl
  have hcs := n.takeProposal_cs p own
  refine h.extend (.inl (n.takeProposal_panicked p own)) (by rw [hcs]) (by rw [hcs])
    (.inr ⟨by rw [hcs], by rw [hcs]⟩) hwrites (by simp) fun _ => .inr ⟨p, ?_, hheight⟩
  rw [Node.walRecords, hwrites, List.append_nil]
  exact hp

/-- Locking on the proposal block, and the State record. -/
theorem lockOn (env : Env) (hblock : n.cs.proposalBlock = some block) :
    Recorded (((n.setStep .precommit).lockOn block).writeState env) := by
  obtain ⟨p, hp, hheight⟩ := h.proposed (.inr (by rw [hblock]; simp))
  generalize hlocked : (n.setStep .precommit).lockOn block = k
  have hk : k.cs.hasWal = n.cs.hasWal ∧ k.cs.height = n.cs.height ∧
      k.cs.lockedBlock = some block := by
    rw [← hlocked]
    exact ⟨rfl, rfl, rfl⟩
  have hwritesk : k.walWrites = n.walWrites := by
    have htrace : k.trace = [(k.cs, .lock)] ++ n.trace := by
      rw [← hlocked]
      rfl
    rw [Node.walWrites_append htrace]
    simp [Action.write?]
  have hdata : k.cs.stateData.height = n.cs.height ∧
      k.cs.stateData.lockedRound = k.cs.lockedRound ∧
      k.cs.stateData.lockedBlockHash = some (blockHash block) := by
    rw [← hlocked]
    exact ⟨rfl, rfl, rfl⟩
  have hcs : (k.writeState env).cs = k.cs := Node.walWrite_cs ..
  have hledger : ∀ {new : List (Message × Bool)},
      (k.writeState env).walWrites = n.walWrites ++ new →
      (∀ x ∈ new, x = (.ofState k.cs.stateData, true)) → Ledger (k.writeState env) := by
    intro new hwrites hnew
    refine h.toLedger.extend (by rw [hcs, hk.1]) (by rw [hcs, hk.2.1]) hwrites fun x hx => ?_
    rw [hnew x hx]
    exact ⟨nofun, .inr ⟨rfl, hdata.1⟩⟩
  rcases walWrite_cases env (.ofState k.cs.stateData) k with hw | hw
  · have hwrites : (k.writeState env).walWrites =
        n.walWrites ++ [(.ofState k.cs.stateData, true)] := by
      have hsync : syncEntry k.cs (.ofState k.cs.stateData) =
          [(k.cs, .walWrite (.ofState k.cs.stateData) true)] :=
        if_pos (hk.1.trans h.hasWal)
      rw [← hwritesk]
      refine Node.walWrites_append (l := [(k.cs, .walWrite (.ofState k.cs.stateData) true)]) ?_
      rw [Node.writeState, hw, hsync]
    have hrecords := Node.walRecords_append hwrites
    refine { hledger hwrites (by simp) with proposed := fun _ => ?_, lock := ?_ }
    · rw [hrecords, hcs, hk.2.1]
      exact ⟨p, List.mem_append_left _ hp, hheight⟩
    · intro _ block' hblock'
      rw [hcs, hk.2.2] at hblock'
      cases hblock'
      rw [hrecords, hcs, atHeight_append]
      refine ⟨k.cs.stateData, (lastOf_append ..).trans ?_, hdata.2⟩
      simp [atHeight, lastOf, Message.ofState, Message.state?, hdata.1, hk.2.1]
  · -- The node stopped in the write.
    have hwrites : (k.writeState env).walWrites = n.walWrites ++ [] := by
      rw [Node.writeState, hw, List.append_nil]
      exact hwritesk
    refine { hledger hwrites (by simp) with proposed := fun _ => ?_, lock := fun hwritten => ?_ }
    · rw [Node.walRecords_append hwrites, hcs, hk.2.1]
      exact ⟨p, List.mem_append_left _ hp, hheight⟩
    · refine absurd ?_ (hwritten k.cs.stateData)
      rw [Node.writeState, hw]
      rfl

theorem startPrecommit (env : Env) : Recorded (n.startPrecommit env).1 := by
  have hstep : Recorded (n.setStep .precommit) :=
    h.quiet (.inl rfl) rfl rfl (.inr ⟨rfl, rfl⟩) id (l := []) rfl (by simp)
  rcases startPrecommit_cases env n with heq | ⟨hash, -, -, heq⟩ | ⟨block, -, -, hblock, heq⟩
  · rw [heq]
    exact hstep
  · rw [heq]
    exact hstep.quiet (.inl rfl) rfl rfl (.inl rfl) id (l := [_]) rfl (by simp [Action.write?])
  · rw [heq]
    exact h.lockOn env hblock

/-- A commit that goes through ends the height: no lock is left to record. -/
theorem committed {env : Env} {commit : Commit} {updates : List ValidatorUpdate}
    {newSet : ValidatorSet} (hc : Committed n env commit block updates newSet m) : Recorded m := by
  have hcs : m.cs = (n.setStep .commit).cs.nextHeight commit newSet := by
    rw [hc.cs]
  have hwrites : m.walWrites = n.walWrites ++ [(.ofEndHeight n.cs.height, true)] := by
    rw [hc.eq]
    exact walWrites_commit h.hasWal
  have hledger : Ledger m := by
    refine h.toLedger.endHeight ?_ ?_ hwrites
    · rw [hcs]
      rfl
    · rw [hcs]
      rfl
  refine { hledger with proposed := fun hor => ?_, lock := fun _ block hblock => ?_ }
  · rw [hcs] at hor
    rcases hor with hlocked | hblock
    · exact absurd rfl hlocked
    · exact absurd rfl hblock
  · rw [hcs] at hblock
    cases hblock

theorem startCommit (env : Env) (halive : n.panicked = none) : Recorded (n.startCommit env) := by
  rcases startCommit_cases env n halive with ⟨commit, block, updates, newSet, hc⟩ | hf
  · exact h.committed hc
  · obtain ⟨l, htrace, hl⟩ : ∃ l, (n.startCommit env).trace = l ++ n.trace ∧
        ∀ x ∈ l, x.2.write? = none := by
      rcases hf.trace with ht | ⟨commit, block, result, -, ht⟩
      · exact ⟨[], ht, by simp⟩
      · exact ⟨[_], ht, by simp [Action.write?]⟩
    refine h.quiet (.inr halive) ?_ ?_ (.inr ?_) ?_ htrace hl
    · rw [hf.cs]
      rfl
    · rw [hf.cs]
      rfl
    · rw [hf.cs]
      exact ⟨rfl, rfl⟩
    · rw [hf.cs]
      exact id

theorem castOwnVote (env : Env) (halive : n.panicked = none) (t : VoteType) (hash : Option Hash) :
    Recorded (n.castOwnVote env t hash).1 := by
  obtain ⟨votes, hcs⟩ := castOwnVote_frame env t hash halive
  have hadd : ∀ {l : List (ConsensusState × Action)},
      (n.castOwnVote env t hash).1.trace = l ++ n.trace →
      (∀ x ∈ l, ∀ w, x.2.write? = some w → ∃ v, w.1 = .ofVote v) →
      Recorded (n.castOwnVote env t hash).1 := by
    intro l htrace hl
    refine h.extend (.inr halive) (by rw [hcs]) (by rw [hcs]) (.inr (by rw [hcs]; exact ⟨rfl, rfl⟩))
      (Node.walWrites_append htrace) (fun w hw => .inl ?_) ?_
    · obtain ⟨x, hx, hwrite⟩ := List.mem_filterMap.mp (List.mem_reverse.mp hw)
      exact hl x hx w hwrite
    · rw [hcs]
      exact .inl
  -- the record of the vote is the only write
  have hwritten : ∀ v, ∀ x ∈ syncEntry n.cs (.ofVote v) ++ [(n.cs, .signVote v)],
      ∀ w, x.2.write? = some w → ∃ v, w.1 = .ofVote v := by
    intro v x hx w hw
    rcases List.mem_append.mp hx with hx | hx
    · rw [mem_syncEntry hx] at hw
      cases hw
      exact ⟨v, rfl⟩
    · rw [List.mem_singleton.mp hx] at hw
      cases hw
  rcases castOwnVote_cases env t hash halive with heq | ⟨v, hcast, -⟩ | ⟨v, hfail, -⟩
  · rw [heq]
    exact h
  · refine hadd (l := ((n.castOwnVote env t hash).1.cs, .castVote v) ::
        (syncEntry n.cs (.ofVote v) ++ [(n.cs, .signVote v)])) ?_ ?_
    · rw [hcast.trace, List.cons_append, List.cons_append, List.append_assoc]
      rfl
    · exact List.forall_mem_cons.mpr ⟨fun w hw => (by cases hw), hwritten v⟩
  · rcases hfail.trace with ht | ht
    · refine hadd (l := [(n.cs, .signVote v)]) ht fun x hx => ?_
      exact hwritten v x (List.mem_append_right _ hx)
    · refine hadd (l := syncEntry n.cs (.ofVote v) ++ [(n.cs, .signVote v)]) ?_ (hwritten v)
      rw [ht, List.append_assoc]
      rfl

end Recorded

/-- What nested own votes have to keep. -/
def SignRecorded (sign : VoteType → Option Hash → Node → Node) : Prop :=
  ∀ t hash (n : Node), n.panicked = none → Recorded n → Recorded (sign t hash n)

theorem recorded_carried (env : Env) {sign : VoteType → Option Hash → Node → Node}
    (hsign : SignRecorded sign) : Carried env sign Recorded where
  startRound := fun r _ hn => hn.startRound r
  prevote := fun halive hn => hsign .prevote _ _ (by simpa using halive) hn.startPrevote
  prevoteWait := fun hn =>
    hn.quiet (.inl rfl) rfl rfl (.inr ⟨rfl, rfl⟩) id (l := [_]) rfl (by simp [Action.write?])
  precommit := fun _ _ hn => Node.andThen_of (hn.startPrecommit env) fun halive =>
    hsign .precommit _ _ halive (hn.startPrecommit env)
  precommitWait := fun hn =>
    hn.quiet (.inl rfl) rfl rfl (.inr ⟨rfl, rfl⟩) id (l := [_]) rfl (by simp [Action.write?])
  requestBlock := fun _ hn => by
    unfold Node.requestBlock
    split
    · exact hn
    · exact hn.emit rfl
  propose := fun p halive hheight hn => by
    have hsigned := hn.emit (a := .signProposal p) rfl
    obtain ⟨hwritten, hmem⟩ :=
      hsigned.walWrite halive env (.inr ⟨p, rfl, hheight⟩)
    exact Node.andThen_of hwritten fun halive' =>
      hwritten.takeProposal (hmem halive') (by simpa using hheight)
  commit := fun r halive hn => (hn.raiseRound r).startCommit env (by simpa using halive)
  raiseRound := fun r hn => hn.raiseRound r
  accept := fun p halive hheight hn => by
    obtain ⟨hwritten, hmem⟩ :=
      hn.walWrite halive env (.inr ⟨p, rfl, hheight⟩)
    exact Node.andThen_of hwritten fun halive' =>
      hwritten.takeProposal (hmem halive') (by simpa using hheight)
  writeVote := fun v halive hn => (hn.walWrite halive env (.inl ⟨v, rfl⟩)).1
  setVotes := fun votes hn => hn.setVotes votes

theorem signRecorded (env : Env) (depth : Nat) :
    SignRecorded (signAndSendVoteLocked env depth) := by
  induction depth with
  | zero =>
    intro t hash n halive hn
    have hcast := hn.castOwnVote env halive t hash
    refine signAndSendVoteLocked_zero (fun _ => hcast) fun vote m heq => ?_
    rw [heq] at hcast
    exact hcast.halt (castOwnVote_alive heq halive) .stackOverflow
  | succ depth ih =>
    intro t hash n halive hn
    have hcast := hn.castOwnVote env halive t hash
    refine signAndSendVoteLocked_succ halive (fun _ => hcast) (fun vote m heq _ => ?_)
      fun k v hk => hk.emit rfl
    rw [heq] at hcast
    exact (recorded_carried env ih).handleAddedVote (castOwnVote_alive heq halive) hcast vote

/-- **The log of every run has the lock.** -/
theorem recorded_run (l : Launch) (hwal : l.wiring.hasWal = true) (env : Env)
    (events : List (Env × Event)) : Recorded (l.run env events) := by
  -- nothing is written yet
  have hfresh : Recorded l.fresh :=
    { hasWal := hwal
      unsynced := fun m hm => by cases hm
      below := fun m hm => by cases hm
      ended := fun m hm => by cases hm
      ordered := List.Pairwise.nil
      proposed := fun h => by
        rcases h with h | h
        · exact absurd rfl h
        · exact absurd rfl h
      lock := fun _ block hblock => by cases hblock }
  exact Carried.run (fun env => recorded_carried env (signRecorded env env.depth)) hfresh env events

/-! ## The lock after a crash -/

omit [Externals] in
/-- Without the end of the height all its records are replayed. -/
theorem replayed_eq_atHeight {height : Int}
    (h : ∀ m ∈ msgs, m.height = height → m.data ≠ .endHeight) :
    replayed height msgs = atHeight height msgs := by
  induction msgs with
  | nil => rfl
  | cons m msgs ih =>
    have hrest := ih fun x hx => h x (List.mem_cons_of_mem _ hx)
    rw [replayed, hrest]
    by_cases hm : m.height = height
    · rw [if_neg (not_not.mpr hm), if_neg (h m (List.mem_cons_self ..) hm), atHeight, atHeight,
        List.filter_cons_of_pos (by simpa using hm)]
    · rw [if_pos hm, atHeight, atHeight, List.filter_cons_of_neg (by simpa using hm)]

omit [Externals] in
theorem lastOf_isSome {α : Type} {kind : Message → Option α} {m : Message} (hm : m ∈ msgs) {x : α}
    (hx : kind m = some x) : ∃ y, lastOf kind msgs = some y := by
  unfold lastOf
  have hne : msgs.filterMap kind ≠ [] :=
    List.ne_nil_of_mem (List.mem_filterMap.mpr ⟨m, hm, hx⟩)
  exact ⟨_, List.getLast?_eq_some_getLast hne⟩

/-- A state that is locked prevotes another block only for a later proof-of-lock. -/
theorem ConsensusState.LockedOn.decidePrevote {cs : ConsensusState} {r : Int} {x y : Hash}
    (h : cs.LockedOn r x) (hvote : cs.decidePrevote.1 = some y) (hne : y ≠ x) :
    ∃ p, cs.proposal = some p ∧ r < p.polRound ∧ p.polRound < p.round ∧ cs.polValid p = true := by
  obtain ⟨hround, hblock⟩ := h
  obtain ⟨locked, hlocked, rfl⟩ := Option.map_eq_some_iff.mp hblock
  unfold ConsensusState.decidePrevote at hvote
  rw [hlocked] at hvote
  dsimp only at hvote
  split at hvote
  · split at hvote
    · exact absurd (Option.some.inj hvote).symm hne
    · split at hvote
      · rename_i hunlock
        unfold ConsensusState.canUnlock at hunlock
        split at hunlock
        · cases hunlock
        · rename_i p hp
          split_ifs at hunlock with h₁ h₂ h₃
          exact ⟨p, hp, by omega, by omega, hunlock⟩
      · cases hvote
  · cases hvote

/-- The records since the marker was written, or since the node was started. -/
structure SinceMarker (n : Node) (earlier later : List (Message × Bool)) : Prop where
  writes : n.walWrites = earlier ++ later
  marker : earlier = [] ∨ ∃ l, earlier = l ++ [(.ofEndHeight (n.cs.height - 1), true)]

/-- The other records of the height, votes apart, come after the marker. -/
theorem SinceMarker.height_lt {earlier later : List (Message × Bool)}
    (h : SinceMarker n earlier later) (hn : Recorded n) :
    ∀ m ∈ earlier.map Prod.fst, m.vote? = none → m.height ≠ n.cs.height := by
  intro m hm hvote
  rcases h.marker with rfl | ⟨l, rfl⟩
  · cases hm
  · rw [List.map_append] at hm
    have hordered := hn.ordered
    rw [Node.walRecords, h.writes, List.map_append, List.map_append, List.append_assoc,
      List.pairwise_append] at hordered
    rcases List.mem_append.mp hm with hm | hm
    · have hle : m.height ≤ n.cs.height - 1 :=
        hordered.2.2 m hm (.ofEndHeight (n.cs.height - 1)) (by simp) rfl hvote
      omega
    · rw [List.mem_singleton.mp hm]
      show n.cs.height - 1 ≠ n.cs.height
      omega

/-- Since the marker the node wrote the last record of its height of every kind other than
votes. -/
theorem SinceMarker.lastOf_eq {earlier later : List (Message × Bool)}
    (h : SinceMarker n earlier later) (hn : Recorded n) {before : List Message} {α : Type}
    {kind : Message → Option α} (hkind : ∀ m, m.vote? ≠ none → kind m = none) {x : α}
    (hx : lastOf kind (atHeight n.cs.height n.walRecords) = some x) :
    lastOf kind (atHeight n.cs.height (before ++ later.map Prod.fst)) = some x := by
  have hrecords : n.walRecords = earlier.map Prod.fst ++ later.map Prod.fst := by
    rw [Node.walRecords, h.writes, List.map_append]
  have hearlier : lastOf kind (atHeight n.cs.height (earlier.map Prod.fst)) = none := by
    refine lastOf_eq_none fun m hm => ?_
    obtain ⟨hm, hheight⟩ := mem_atHeight.mp hm
    by_contra hsome
    exact h.height_lt hn m hm (by by_contra hne; exact hsome (hkind m hne)) hheight
  rw [hrecords, atHeight_append, lastOf_append, hearlier, Option.or_none] at hx
  rw [atHeight_append, lastOf_append, hx]
  rfl

/-- What a log is replayed from that has the marker and what was written since. -/
theorem SinceMarker.sinceEnd_eq [MessageCodec] {earlier later : List (Message × Bool)}
    (h : SinceMarker n earlier later) (hn : Recorded n)
    (hmarker : .ofEndHeight (n.cs.height - 1) ∈ msgs)
    (hend : ∀ m ∈ msgs, m.height = n.cs.height → m.data ≠ .endHeight) :
    sinceEnd n.cs.height (msgs ++ later.map Prod.fst) = atHeight n.cs.height
      (afterFirst (FileWAL.endsHeight (n.cs.height - 1)) msgs ++ later.map Prod.fst) := by
  have hexists : ∃ m ∈ msgs, FileWAL.endsHeight (n.cs.height - 1) m = true :=
    ⟨_, hmarker, endsHeight_ofEndHeight _⟩
  rw [sinceEnd, afterFirst_append_of_exists hexists]
  refine replayed_eq_atHeight fun m hm hheight => ?_
  rcases List.mem_append.mp hm with hm | hm
  · obtain ⟨before, marker, hsplit, -⟩ := afterFirst_split hexists
    refine hend m ?_ hheight
    rw [hsplit]
    simp [hm]
  · intro hdata
    have hmem : m ∈ n.walRecords := by
      rw [Node.walRecords, h.writes, List.map_append]
      exact List.mem_append_right _ hm
    exact absurd hheight (hn.ended m hmem hdata).ne

/-- A node with a WAL stops while it is locked, at any point of any run but in the write of
the State record of the lock. Since the EndHeight marker of the previous height is in the
log no segment was started; everything written can be read; the crash leaves at least what
was synced, and no part of a field.

Then a fresh consensus state is locked in the same way after `ReplayCatchup` exactly if the
last proposal of the height that was written to the log is for the locked block. While it is
locked it prevotes another block only for a valid proof-of-lock of a later round. -/
theorem lock_survives_iff [MessageCodec] (l : Launch) (hwal : l.wiring.hasWal = true) (env : Env)
    (events : List (Env × Event)) {n : Node} (hn : n = l.run env events) {block : Block}
    (hlocked : n.cs.lockedBlock = some block)
    (hwritten : ∀ s, n.panicked ≠ some (.walWrite (.ofState s)))
    {earlier later : List (Message × Bool)} (hsince : SinceMarker n earlier later)
    {low : Nat} {l₀ lg : Log Message} (h₀ : l₀.Laid low) (hstarted : l₀.wal.started = true)
    (hbuf : l₀.wal.buf = []) (hmarker : .ofEndHeight (n.cs.height - 1) ∈ l₀.last)
    (hend : ∀ m ∈ l₀.last, m.height = n.cs.height → m.data ≠ .endHeight)
    (hlg : lg = l₀.run (later.map .ofWrite))
    (hsegment : lg.wal.segmentIndex = l₀.wal.segmentIndex)
    (hnum : lg.wal.segmentIndex < 100000)
    (hreadable₀ : ∀ e ∈ l₀.journal, Readable e.2) (hreadable : ∀ w ∈ later, Readable w.1)
    {c : Nat} (hc : (lg.wal.segment lg.wal.segmentIndex).length ≤ c)
    (hcut : CutBetweenFields c lg.last) (maxSegSize : Int)
    {w : Wiring} (hw : w.hasWal = true) (vs : ValidatorSet) :
    (((newConsensusState w vs).replayCatchup n.cs.height
        (lg.recovered c maxSegSize).wal).1.LockedOn n.cs.lockedRound (blockHash block) ↔
      ∃ p, lastProposal (atHeight n.cs.height n.walRecords) = some p ∧
        blockHash p.block = blockHash block) ∧
    ∀ cs : ConsensusState, cs.LockedOn n.cs.lockedRound (blockHash block) →
      ∀ x, cs.decidePrevote.1 = some x → x ≠ blockHash block →
        ∃ p, cs.proposal = some p ∧ n.cs.lockedRound < p.polRound ∧ p.polRound < p.round ∧
          cs.polValid p = true := by
  refine ⟨?_, fun cs hcs x hvote hne => hcs.decidePrevote hvote hne⟩
  have hrec : Recorded n := by
    rw [hn]
    exact recorded_run l hwal env events
  have hcrashed : Crashed low l₀ later lg c :=
    ⟨h₀, hstarted, hbuf, hlg, hreadable₀, hreadable, hnum, hc, hcut⟩
  have hlast : lg.last = l₀.last ++ later.map Prod.fst := hcrashed.last_eq hsegment
  have hunsynced : ∀ m, (m, false) ∈ later → ∃ v, m = .ofVote v := by
    intro m hm
    refine hrec.unsynced m ?_
    rw [hsince.writes]
    exact List.mem_append_right _ hm
  have hlastOf : ∀ {α : Type} {kind : Message → Option α}, (∀ m, m.vote? ≠ none → kind m = none) →
      ∀ {x : α}, lastOf kind (atHeight n.cs.height n.walRecords) = some x →
        lastOf kind (sinceEnd n.cs.height (fullRecords c lg.last)) = some x := by
    intro α kind hkind x hx
    have hsame : nonVotes (sinceEnd n.cs.height (fullRecords c lg.last)) =
        nonVotes (sinceEnd n.cs.height lg.last) := by
      rw [nonVotes_sinceEnd, hcrashed.nonVotes_eq hunsynced, nonVotes_sinceEnd]
    rw [lastOf_congr hkind hsame, hlast, hsince.sinceEnd_eq hrec hmarker hend]
    exact hsince.lastOf_eq hrec hkind hx
  obtain ⟨s, hs, hround, hhash⟩ := hrec.lock hwritten block hlocked
  have hstate : lastState (sinceEnd n.cs.height (fullRecords c lg.last)) = some s :=
    hlastOf (fun m hm => (Message.not_vote hm).2) hs
  obtain ⟨p, hp, hheight⟩ := hrec.proposed (.inl (by rw [hlocked]; simp))
  obtain ⟨q, hq⟩ : ∃ q, lastProposal (atHeight n.cs.height n.walRecords) = some q :=
    lastOf_isSome (x := p) (mem_atHeight.mpr ⟨hp, hheight⟩) rfl
  have hproposal : lastProposal (sinceEnd n.cs.height (fullRecords c lg.last)) = some q :=
    hlastOf (fun m hm => (Message.not_vote hm).1) hq
  obtain ⟨result, hcollected, hcatchup⟩ := replayCatchup_recovered (newConsensusState w vs) hw
    hcrashed n.cs.height maxSegSize
  rw [hcrashed.laid_end.recovered_sinceMarker hnum (hcrashed.marker_mem hunsynced
    (by rw [hlast]; exact List.mem_append_left _ hmarker))] at hcollected hcatchup
  have hne : sinceEnd n.cs.height (fullRecords c lg.last) ≠ [] := by
    intro hnil
    rw [hnil] at hstate
    cases hstate
  rw [hcatchup, if_neg (show replayed _ _ ≠ [] from hne), lockedOn_restore_iff hcollected rfl]
  rw [show lastState (replayed _ _) = some s from hstate,
    show lastProposal (replayed _ _) = some q from hproposal, hq]
  exact ⟨fun h => h.2, fun h => ⟨⟨s, rfl, hround, hhash⟩, h⟩⟩

end

section runs

attribute [local instance] transparent

/-- A log with the marker of height 0. -/
def firstLog [MessageCodec] : Log Message :=
  (Log.new Message 100000).run [.writeSync (.ofEndHeight 0)]

theorem firstLog_laid [MessageCodec] (hsized : firstLog.Sized) : firstLog.Laid 0 := by
  obtain ⟨low, -, hlaid, hkeeps⟩ := Log.run_laid (M := Message) [.writeSync (.ofEndHeight 0)]
    (Log.new_laid 100000) ⟨nofun, trivial⟩ hsized
  rw [hkeeps (by simp [Op.Keeps])] at hlaid
  exact hlaid

/-- Validator 1 locks on `block 1 5` when validator 2 prevotes it. -/
def lockingRun (rest : List Event) : Node :=
  Scenario.run 1 (Scenario.validatorSet [(1, 1), (2, 9)] Scenario.isOk_weak)
    (.proposal (Scenario.proposal 2 1 0 (Scenario.block 1 5) (-1) []) ::
      .vote (Scenario.vote 2 1 .prevote 1 0 (some (Scenario.block 1 5))) :: rest)

/-- In round 1 another block is proposed. -/
def overtaken : Node :=
  lockingRun
    [.vote (Scenario.vote 2 1 .precommit 1 1 none),
      .proposal (Scenario.proposal 2 1 1 (Scenario.block 1 6) (-1) [])]

/-- The locked validator would prevote nil. After the restart it has no locked block and
prevotes the second proposal. -/
theorem lock_lost_after_second_proposal :
    letI := tableCodec (.ofEndHeight 0 :: overtaken.walRecords)
    let lg := firstLog.run (overtaken.walWrites.map .ofWrite)
    let cs := ((newConsensusState (Scenario.wiring 1 false)
      overtaken.cs.validatorSet).replayCatchup 1 (lg.recovered 1000 100000).wal).1
    overtaken.cs.lockedBlock = some (Scenario.block 1 5) ∧ overtaken.cs.lockedRound = 0 ∧
      overtaken.cs.decidePrevote.1 = none ∧
      cs.lockedRound = 0 ∧ cs.lockedBlock = none ∧
      cs.decidePrevote.1 = some (blockHash (Scenario.block 1 6)) := by
  decide +kernel

/-- Without the second proposal the lock is back. -/
theorem lock_survives_single_proposal :
    letI := tableCodec (.ofEndHeight 0 :: (lockingRun []).walRecords)
    let lg := firstLog.run ((lockingRun []).walWrites.map .ofWrite)
    ((newConsensusState (Scenario.wiring 1 false)
      (lockingRun []).cs.validatorSet).replayCatchup 1
        (lg.recovered 1000 100000).wal).1.LockedOn 0 (blockHash (Scenario.block 1 5)) := by
  let _ := tableCodec (.ofEndHeight 0 :: (lockingRun []).walRecords)
  intro lg
  have hsized : firstLog.Sized := by
    unfold Log.Sized
    decide +kernel
  have hlaid := firstLog_laid hsized
  have hlocked : (lockingRun []).cs.lockedBlock = some (Scenario.block 1 5) := by
    decide +kernel
  have hround : (lockingRun []).cs.lockedRound = 0 := by decide +kernel
  have hheight : (lockingRun []).cs.height = 1 := by decide +kernel
  have halive : (lockingRun []).panicked = none := by decide +kernel
  have hencoded₀ : ∀ e ∈ firstLog.journal,
      (WalCodec.marshal e.2).isSome ∧ msgSize e.2 < maxMsgSize := by decide +kernel
  have hencoded : ∀ x ∈ (lockingRun []).walWrites,
      (WalCodec.marshal x.1).isSome ∧ msgSize x.1 < maxMsgSize := by decide +kernel
  have hwhole : tornRecord 1000 lg.last = none := by decide +kernel
  have hproposal : lastProposal (atHeight 1 (lockingRun []).walRecords) =
      some (Scenario.proposal 2 1 0 (Scenario.block 1 5) (-1) []) := by decide +kernel
  have hiff := (lock_survives_iff (Scenario.launch 1 _) rfl (Scenario.env 1) _
    (n := lockingRun []) rfl hlocked (by rw [halive]; nofun) ⟨rfl, .inl rfl⟩ hlaid
    (by decide +kernel) (by decide +kernel) (by decide +kernel) (by decide +kernel)
    (rfl : lg = _) (by decide +kernel)
    (by decide +kernel) (fun e he => ⟨(hencoded₀ e he).1, (hencoded₀ e he).2⟩)
    (fun x hx => ⟨(hencoded x hx).1, (hencoded x hx).2⟩) (c := 1000) (by decide +kernel)
    (fun k m hk => by rw [hwhole] at hk; cases hk) 100000
    (w := Scenario.wiring 1 false) rfl (lockingRun []).cs.validatorSet).1
  rw [hround, hheight] at hiff
  exact hiff.mpr ⟨_, hproposal, rfl⟩

end runs

end Leaderberry
