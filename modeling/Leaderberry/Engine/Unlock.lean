import Leaderberry.Engine.Lock
import Leaderberry.Engine.Pol
import Leaderberry.Engine.Scenario

/-!
# The unlock rule

A node that was locked on a block `B` at round `r` prevotes another block later at
the same height only if it has seen a reason: 2/3+ prevotes of a round after `r`
for something other than `B`, either in its own vote set or in the proof of lock of
a proposal it accepted.

`Bound` is what a lock leaves behind: the node is still locked on the same hash, or
it has such a reason (`Released`). Atoms keep it (`Atom.bound`), because the lock
fields change only in the four ways of `LockMove`. `LockHistory` says it of every
lock that the trace shows, and `unlock_rule` reads it at the moment a prevote is
signed.
-/

namespace Leaderberry

section

variable [Externals] {cs : ConsensusState} {env : Env} {input : Option Event} {n m : Node}
  {block : Block} {hash : Option Hash}

/-! ## What an atom does to the lock -/

/-- Two states with the same height and lock. -/
structure SameLock (cs cs' : ConsensusState) : Prop where
  height : cs.height = cs'.height
  block : cs.lockedBlock = cs'.lockedBlock
  round : cs.lockedRound = cs'.lockedRound

/-- The ways an atom treats the lock. -/
inductive LockMove (n m : Node) : Prop
  | same : SameLock m.cs n.cs → LockMove n m
  | nextHeight : n.cs.height < m.cs.height → LockMove n m
  | unlockNil {hash : Option Hash} : n.cs.votes.majority .prevote n.cs.round = some hash →
      isHashEmpty hash = true → ((n.setStep .precommit).cs, .unlockNil) ∈ m.trace →
      LockMove n m
  | unlockPol {p : Proposal} {block locked : Block} : n.cs.lockedBlock = some locked →
      n.cs.proposal = some p → n.cs.proposalBlock = some block →
      blockHash block ≠ blockHash locked → n.cs.lockedRound < p.polRound →
      p.polRound < p.round → n.cs.polValid p = true → LockMove n m
  | lock {block : Block} : m.cs.lockedBlock = some block → m.cs.lockedRound = n.cs.round →
      n.cs.votes.majority .prevote n.cs.round = some (some (blockHash block)) →
      isHashEmpty (some (blockHash block)) = false → LockMove n m

/-- Giving up the lock in Prevote takes a different proposal with a valid POL from
a round after the lock and before the proposal. -/
theorem decidePrevote_unlock (h : cs.decidePrevote.2 = true) :
    ∃ p block locked, cs.lockedBlock = some locked ∧ cs.proposal = some p ∧
      cs.proposalBlock = some block ∧ blockHash block ≠ blockHash locked ∧
      cs.lockedRound < p.polRound ∧ p.polRound < p.round ∧ cs.polValid p = true := by
  unfold ConsensusState.decidePrevote at h
  split at h
  · rename_i locked hlocked
    split at h
    · rename_i block hblock
      split at h
      · cases h
      · rename_i hne
        split at h
        · rename_i hcan
          unfold ConsensusState.canUnlock at hcan
          split at hcan
          · cases hcan
          · rename_i p hp
            split at hcan
            · cases hcan
            split at hcan
            · cases hcan
            split at hcan
            · cases hcan
            rename_i hlater hbefore
            exact ⟨p, block, locked, hlocked, hp, hblock, hne, not_le.mp hlater,
              not_le.mp hbefore, hcan⟩
        · cases h
    · cases h
  · cases h

theorem Atom.lockMove (h : Atom env input n m) : LockMove n m := by
  cases h with
  | emit => exact .same ⟨rfl, rfl, rfl⟩
  | halt => exact .same ⟨rfl, rfl, rfl⟩
  | startRound => exact .same ⟨rfl, rfl, rfl⟩
  | takeProposal =>
    refine .same ?_
    rw [Node.takeProposal_cs]
    exact ⟨rfl, rfl, rfl⟩
  | startPrevote =>
    rcases n.startPrevote_cases with ⟨-, heq⟩ | ⟨hunlock, heq⟩
    · rw [heq]
      exact .same ⟨rfl, rfl, rfl⟩
    · obtain ⟨p, block, locked, h₁, h₂, h₃, h₄, h₅, h₆, h₇⟩ := decidePrevote_unlock hunlock
      exact .unlockPol h₁ h₂ h₃ h₄ h₅ h₆ h₇
  | startPrevoteWait => exact .same ⟨rfl, rfl, rfl⟩
  | startPrecommit =>
    rcases startPrecommit_cases env n with
      heq | ⟨hash, hmaj, hempty, heq⟩ | ⟨block, hmaj, hne, -, heq⟩
    · rw [heq]
      exact .same ⟨rfl, rfl, rfl⟩
    · rw [heq]
      exact .unlockNil hmaj hempty (List.mem_cons_self ..)
    · have hcs : (n.startPrecommit env).1.cs = ((n.setStep .precommit).lockOn block).cs := by
        rw [heq, Node.writeState, Node.walWrite_cs]
      refine .lock ?_ ?_ hmaj hne <;>
        · rw [hcs]
          rfl
  | startPrecommitWait => exact .same ⟨rfl, rfl, rfl⟩
  | castOwnVote halive =>
    obtain ⟨votes, hcs⟩ := castOwnVote_frame _ _ _ halive
    refine .same ?_
    rw [hcs]
    exact ⟨rfl, rfl, rfl⟩
  | receiveVote => exact .same ⟨rfl, rfl, rfl⟩
  | raiseRound =>
    refine .same ?_
    rw [Node.raiseRound_cs]
    exact ⟨rfl, rfl, rfl⟩
  | startCommit halive =>
    rcases startCommit_cases env n halive with ⟨commit, block, updates, newSet, hc⟩ | hf
    · refine .nextHeight ?_
      rw [hc.cs]
      show n.cs.height < n.cs.height + 1
      omega
    · refine .same ?_
      rw [hf.cs]
      exact ⟨rfl, rfl, rfl⟩

omit [Externals] in
theorem SameLock.refl (cs : ConsensusState) : SameLock cs cs := ⟨rfl, rfl, rfl⟩

/-- New trace entries show the lock before or the lock after the atom. -/
theorem Atom.entries_lock (h : Atom env input n m) : ∃ l, m.trace = l ++ n.trace ∧
    ∀ x ∈ l, SameLock x.1 n.cs ∨ SameLock x.1 m.cs := by
  obtain ⟨s, l, hl, hnew⟩ := h.entries
  refine ⟨l, hl, fun x hx => ?_⟩
  rcases (hnew x hx).eq_or with heq | heq
  · rw [heq]
    exact .inr (.refl _)
  · rw [heq]
    exact .inl ⟨rfl, rfl, rfl⟩

/-! ## The proposal a node holds was accepted -/

/-- The block in `proposalBlock` came with a proposal that the node accepted at this
height, under the present configuration and validators. -/
def ProposalKnown (n : Node) : Prop :=
  ∀ block, n.cs.proposalBlock = some block → ∃ p cs, n.cs.proposal = some p ∧
    p.block = block ∧ p.height = n.cs.height ∧ p.round ≤ n.cs.round ∧
    (cs, .acceptProposal p) ∈ n.trace ∧ cs.config = n.cs.config ∧
    cs.validatorSet = n.cs.validatorSet

/-- The ways an atom treats the proposal. -/
inductive ProposalMove (n m : Node) : Prop
  | same : m.cs.proposal = n.cs.proposal → m.cs.proposalBlock = n.cs.proposalBlock →
      m.cs.height = n.cs.height → ProposalMove n m
  | cleared : m.cs.proposalBlock = none → ProposalMove n m
  | taken {p : Proposal} {own : Bool} : p.height = n.cs.height → p.round = n.cs.round →
      m = n.takeProposal p own → ProposalMove n m

theorem Atom.proposalMove (h : Atom env input n m) : ProposalMove n m := by
  cases h with
  | emit => exact .same rfl rfl rfl
  | halt => exact .same rfl rfl rfl
  | startRound => exact .cleared rfl
  | takeProposal htakes => exact .taken htakes.height_round.1 htakes.height_round.2 rfl
  | startPrevote =>
    obtain ⟨lockedRound, lockedBlock, hcs⟩ := startPrevote_frame n
    refine .same ?_ ?_ ?_ <;> rw [hcs]
  | startPrevoteWait => exact .same rfl rfl rfl
  | startPrecommit =>
    obtain ⟨_, _, _, _, hcs⟩ := startPrecommit_frame env n
    refine .same ?_ ?_ ?_ <;> rw [hcs]
  | startPrecommitWait => exact .same rfl rfl rfl
  | castOwnVote halive =>
    obtain ⟨votes, hcs⟩ := castOwnVote_frame _ _ _ halive
    refine .same ?_ ?_ ?_ <;> rw [hcs]
  | receiveVote => exact .same rfl rfl rfl
  | raiseRound => refine .same ?_ ?_ ?_ <;> rw [Node.raiseRound_cs]
  | startCommit halive =>
    rcases startCommit_cases env n halive with ⟨commit, block, updates, newSet, hc⟩ | hf
    · refine .cleared ?_
      rw [hc.cs]
      rfl
    · refine .same ?_ ?_ ?_ <;> rw [hf.cs] <;> rfl

omit [Externals] in
theorem mem_takeProposal (p : Proposal) (own : Bool) (n : Node) :
    ((n.takeProposal p own).cs, .acceptProposal p) ∈ (n.takeProposal p own).trace := by
  unfold Node.takeProposal
  dsimp only
  split
  · exact List.mem_cons_of_mem _ (List.mem_cons_self ..)
  · exact List.mem_cons_self ..

theorem ProposalKnown.atom (h : ProposalKnown n) (hsound : Sound n.cs) (ha : Atom env input n m) :
    ProposalKnown m := by
  intro block hblock
  cases ha.proposalMove with
  | same hp hb hh =>
    obtain ⟨p, cs, h₁, h₂, h₃, h₄, h₅, h₆, h₇⟩ := h block (hb ▸ hblock)
    have hgrows := ha.changes.grows hsound
    exact ⟨p, cs, hp.trans h₁, h₂, h₃.trans hh.symm, h₄.trans (hgrows.round hh),
      ha.trace_suffix.subset h₅, h₆.trans hgrows.config.symm,
      h₇.trans (hgrows.validatorSet hh).symm⟩
  | cleared hnone =>
    rw [hnone] at hblock
    cases hblock
  | @taken p own hh hr heq =>
    subst heq
    rw [Node.takeProposal_cs] at hblock
    refine ⟨p, _, ?_, Option.some_inj.mp hblock, ?_, ?_, mem_takeProposal p own n, rfl, rfl⟩
    · rw [Node.takeProposal_cs]
    · rw [Node.takeProposal_cs]
      exact hh
    · rw [Node.takeProposal_cs]
      exact hr.le

/-! ## What a lock leaves behind -/

/-- A reason to give up a lock on hash `b` of round `r`: 2/3+ prevotes of a later
round for another block or, where `nil` holds, for nil, in the own vote set or in an
accepted proposal. -/
def Released (nil : Prop) (cs : ConsensusState) (trace : List (ConsensusState × Action))
    (b : Hash) (r : Int) : Prop :=
  ∃ q, r < q ∧ q ≤ cs.round ∧
    ((∃ hash, cs.votes.majority .prevote q = some hash ∧ hash ≠ some b ∧
        (isHashEmpty hash = true → nil)) ∨
      ∃ cs' p, (cs', .acceptProposal p) ∈ trace ∧ p.height = cs.height ∧ p.polRound = q ∧
        q < p.round ∧ p.round ≤ cs.round ∧ blockHash p.block ≠ b ∧ cs'.polValid p = true)

/-- Still locked on `b`, at `r` or later, or released from it. -/
def Bound (nil : Prop) (n : Node) (b : Hash) (r : Int) : Prop :=
  (∃ block, n.cs.lockedBlock = some block ∧ blockHash block = b ∧ r ≤ n.cs.lockedRound) ∨
    Released nil n.cs n.trace b r

/-- Where `nil` does not hold, no lock was given up for a nil majority. -/
def NilUnlocks (nil : Prop) (trace : List (ConsensusState × Action)) : Prop :=
  ∀ cs, (cs, .unlockNil) ∈ trace → nil ∨ cs.lockedBlock = none

omit [Externals] in
theorem NilUnlocks.of_suffix {nil : Prop} {trace trace' : List (ConsensusState × Action)}
    (h : NilUnlocks nil trace') (hsuf : trace <:+ trace') : NilUnlocks nil trace :=
  fun cs hmem => h cs (hsuf.subset hmem)

omit [Externals] in
theorem nilUnlocks_true {trace : List (ConsensusState × Action)} : NilUnlocks True trace :=
  fun _ _ => .inl trivial

variable {nil : Prop}

theorem Released.mono {cs' : ConsensusState} {trace trace' : List (ConsensusState × Action)}
    {b : Hash} {r : Int} (h : Released nil cs trace b r) (hgrows : Grows cs cs')
    (hheight : cs'.height = cs.height) (htrace : trace <:+ trace') :
    Released nil cs' trace' b r := by
  obtain ⟨q, hrq, hq, hcause⟩ := h
  have hround := hgrows.round hheight
  refine ⟨q, hrq, hq.trans hround, ?_⟩
  rcases hcause with ⟨hash, hmaj, hne⟩ | ⟨cs₀, p, h₁, h₂, h₃, h₄, h₅, h₆⟩
  · exact .inl ⟨hash, hgrows.majority hheight _ _ _ hmaj, hne⟩
  · exact .inr ⟨cs₀, p, htrace.subset h₁, h₂.trans hheight.symm, h₃, h₄, h₅.trans hround, h₆⟩

/-- A majority for something else in the current round comes after the lock. -/
theorem Sound.lockedRound_lt (h : Sound cs) (hlock : cs.lockedBlock = some block)
    (hmaj : cs.votes.majority .prevote cs.round = some hash) (hne : hash ≠ some (blockHash block)) :
    cs.lockedRound < cs.round := by
  have hjust := h.lock
  rw [hlock] at hjust
  obtain ⟨-, hle, hown, -⟩ := hjust
  refine lt_of_le_of_ne hle fun heq => hne ?_
  rw [heq, hmaj] at hown
  exact Option.some_inj.mp hown

theorem polValid_of_eq {cs' : ConsensusState} (hconfig : cs'.config = cs.config)
    (hset : cs'.validatorSet = cs.validatorSet) (p : Proposal) :
    cs'.polValid p = cs.polValid p := by
  unfold ConsensusState.polValid
  rw [hconfig, hset]

/-- An atom that stays at the height keeps every bound. -/
theorem Bound.atom {b : Hash} {r : Int} (h : Bound nil n b r) (hsound : Sound n.cs)
    (hknown : ProposalKnown n) (ha : Atom env input n m) (hnil : NilUnlocks nil m.trace)
    (hheight : m.cs.height = n.cs.height) : Bound nil m b r := by
  have hgrows := ha.changes.grows hsound
  have hround := hgrows.round hheight
  rcases h with ⟨block, hlock, rfl, hr⟩ | hreleased
  · cases ha.lockMove with
    | same hsame => exact .inl ⟨block, hsame.block.trans hlock, rfl, hsame.round ▸ hr⟩
    | nextHeight hlt => omega
    | @unlockNil hash hmaj hempty hmem =>
      have hnil : nil := by
        rcases hnil _ hmem with hnil | hnone
        · exact hnil
        · exact absurd (hlock.symm.trans hnone) (by simp)
      -- the nil majority is not the one the lock stands on
      have hne : hash ≠ some (blockHash block) := by
        rintro rfl
        have hjust := hsound.lock
        rw [hlock] at hjust
        rw [hjust.2.2.2] at hempty
        cases hempty
      have hlt := hsound.lockedRound_lt hlock hmaj hne
      exact .inr ⟨n.cs.round, by omega, hround,
        .inl ⟨hash, hgrows.majority hheight _ _ _ hmaj, hne, fun _ => hnil⟩⟩
    | @unlockPol p block' locked hlocked hp hb hne hlater hbefore hvalid =>
      obtain ⟨p', cs', hp', hblock, hph, hpr, hmem, hconfig, hset⟩ := hknown block' hb
      rw [hp] at hp'
      cases hp'
      rw [hlock] at hlocked
      cases hlocked
      refine .inr ⟨p.polRound, by omega, by omega, .inr ⟨cs', p, ha.trace_suffix.subset hmem,
        hph.trans hheight.symm, rfl, hbefore, hpr.trans hround, ?_, ?_⟩⟩
      · rw [hblock]
        exact hne
      · rw [polValid_of_eq hconfig hset]
        exact hvalid
    | @lock block' hlock' hround' hmaj hfull =>
      have hjust := hsound.lock
      rw [hlock] at hjust
      by_cases hsame : blockHash block' = blockHash block
      · exact .inl ⟨block', hlock', hsame, by rw [hround']; exact hr.trans hjust.2.1⟩
      · have hne : some (blockHash block') ≠ some (blockHash block) :=
          fun heq => hsame (Option.some_inj.mp heq)
        have hlt := hsound.lockedRound_lt hlock hmaj hne
        refine .inr ⟨n.cs.round, by omega, hround,
          .inl ⟨_, hgrows.majority hheight _ _ _ hmaj, hne, fun hempty => ?_⟩⟩
        rw [hfull] at hempty
        cases hempty
  · exact .inr (hreleased.mono hgrows hheight ha.trace_suffix)

/-- Every lock of this height that the trace shows still binds. -/
def LockHistory (nil : Prop) (n : Node) : Prop :=
  ∀ x ∈ n.trace, x.1.height ≤ n.cs.height ∧ (x.1.height = n.cs.height →
    ∀ block, x.1.lockedBlock = some block → Bound nil n (blockHash block) x.1.lockedRound)

theorem LockHistory.atom (h : LockHistory nil n) (hsound : Sound n.cs) (hknown : ProposalKnown n)
    (ha : Atom env input n m) (hnil : NilUnlocks nil m.trace) : LockHistory nil m := by
  have hheight := (ha.changes.grows hsound).height
  obtain ⟨l, hl, hnew⟩ := ha.entries_lock
  intro x hx
  rw [hl] at hx
  rcases List.mem_append.mp hx with hx | hx
  · rcases hnew x hx with hbefore | hafter
    · refine ⟨hbefore.height.le.trans hheight, fun heq block hblock => ?_⟩
      have hbound : Bound nil n (blockHash block) x.1.lockedRound :=
        .inl ⟨block, hbefore.block ▸ hblock, rfl, hbefore.round.le⟩
      exact hbound.atom hsound hknown ha hnil (heq ▸ hbefore.height)
    · exact ⟨hafter.height.le, fun _ block hblock =>
        .inl ⟨block, hafter.block ▸ hblock, rfl, hafter.round.le⟩⟩
  · obtain ⟨hle, hbound⟩ := h x hx
    refine ⟨hle.trans hheight, fun heq block hblock => ?_⟩
    have hstay : m.cs.height = n.cs.height := le_antisymm (heq ▸ hle) hheight
    exact (hbound (heq.trans hstay) block hblock).atom hsound hknown ha hnil hstay

/-- The invariants of this module together. -/
structure Remembers (nil : Prop) (n : Node) : Prop where
  sound : Sound n.cs
  known : ProposalKnown n
  locks : LockHistory nil n

theorem Remembers.atom (h : Remembers nil n) (ha : Atom env input n m)
    (hnil : NilUnlocks nil m.trace) : Remembers nil m where
  sound := h.sound.atom ha
  known := h.known.atom h.sound ha
  locks := h.locks.atom h.sound h.known ha hnil

theorem Remembers.atoms (h : Remembers nil n) (ha : Atoms env input n m)
    (hnil : NilUnlocks nil m.trace) : Remembers nil m := by
  induction ha with
  | refl => exact h
  | tail _ hlast ih => exact (ih (hnil.of_suffix hlast.trace_suffix)).atom hlast hnil

/-! ## The prevotes a node signs -/

/-- A node that is locked while it prevotes a block prevotes the locked one. -/
theorem startPrevote_locked {x : Hash} (hx : n.cs.decidePrevote.1 = some x)
    (hlock : n.startPrevote.cs.lockedBlock = some block) :
    x = blockHash block := by
  rcases n.startPrevote_cases with ⟨hkeep, heq⟩ | ⟨-, heq⟩
  · rw [heq] at hlock
    have hn : n.cs.lockedBlock = some block := hlock
    unfold ConsensusState.decidePrevote at hx hkeep
    simp only [hn] at hx hkeep
    split at hx
    · split at hx
      · exact (Option.some_inj.mp hx).symm
      · split at hx
        · simp_all
        · cases hx
    · cases hx
  · rw [heq] at hlock
    cases hlock

theorem VoteStart.prevote_locked {k : Node} {t : VoteType} (h : VoteStart env input n k t hash)
    (ht : t = .prevote) {x : Hash} (hx : hash = some x) (hlock : k.cs.lockedBlock = some block) :
    x = blockHash block := by
  cases h with
  | prevote => exact startPrevote_locked hx hlock
  | prevoteReceived => exact startPrevote_locked hx hlock
  | prevoteOwn => exact startPrevote_locked hx hlock
  | precommit => cases ht

/-- What the trace before a signed prevote says about the locks in it. -/
def UnlockRule (n : Node) : Prop :=
  ∀ cs v older, (cs, .signVote v) :: older <:+ n.trace → v.type = .prevote →
    ∀ x, v.blockHash = some x → v.height = cs.height ∧ v.round = cs.round ∧
      ∀ y ∈ older, y.1.height = v.height → ∀ block, y.1.lockedBlock = some block →
        x ≠ blockHash block → Released True cs older (blockHash block) y.1.lockedRound

omit [Externals] in
/-- A suffix that starts with something not in the front part lies in the back part. -/
theorem suffix_of_notMem {α : Type} {a : α} {front back rest : List α}
    (h : a :: rest <:+ front ++ back) (ha : a ∉ front) : a :: rest <:+ back := by
  induction front with
  | nil => exact h
  | cons b front ih =>
    rcases List.suffix_cons_iff.mp h with heq | hsuf
    · exact absurd (List.mem_cons.mpr (.inl (List.cons.inj heq).1)) ha
    · exact ih hsuf fun hmem => ha (List.mem_cons_of_mem _ hmem)

theorem UnlockRule.sameVotes (h : UnlockRule n) (ha : Atoms env input n m) (hsame : SameVotes n m) :
    UnlockRule m := by
  obtain ⟨l, hl⟩ := ha.trace_suffix
  intro cs v older hsuf
  refine h cs v older (suffix_of_notMem (hl ▸ hsuf) fun hmem => ?_)
  -- an entry of `l` that signs would show up among the signed votes
  have hsigns := hsame.signs
  rw [Node.signs, ← hl, List.filterMap_append, ← Node.signs, List.append_left_eq_self] at hsigns
  have hnone := List.filterMap_eq_nil_iff.mp hsigns _ hmem
  cases hnone

theorem UnlockRule.signed {k : Node} {t : VoteType} {vote : Vote}
    {l : List (ConsensusState × Action)} (h : UnlockRule n) (hn : Remembers True n)
    (hstart : VoteStart env input n k t hash) (hown : OwnVote k.cs env t hash vote)
    (htrace : m.trace = l ++ (k.cs, .signVote vote) :: k.trace)
    (hl : ∀ x ∈ l, ∀ v, x.2 ≠ .signVote v) : UnlockRule m := by
  have hk : Remembers True k := hn.atoms hstart.atoms nilUnlocks_true
  intro cs v older hsuf htype x hx
  rw [htrace] at hsuf
  rcases List.suffix_cons_iff.mp (suffix_of_notMem hsuf fun hmem => hl _ hmem v rfl) with
    heq | hsuf
  · obtain ⟨hentry, rfl⟩ := List.cons.inj heq
    obtain ⟨rfl, hv⟩ := Prod.mk.inj hentry
    obtain rfl := Action.signVote.inj hv
    refine ⟨hown.height, hown.round, fun y hy hheight block hblock hne => ?_⟩
    rcases (hk.locks y hy).2 (hheight.trans hown.height) block hblock with
      ⟨block', hlock, hhash, -⟩ | hreleased
    · have hsame := hstart.prevote_locked (hown.type.symm.trans htype)
        (hown.blockHash.symm.trans hx) hlock
      exact absurd (hsame.trans hhash) hne
    · exact hreleased
  · exact (h.sameVotes hstart.atoms hstart.sameVotes) cs v older hsuf htype x hx

theorem UnlockRule.step {re : Bool} (h : UnlockRule n) (hn : Remembers True n)
    (hstep : MicroStep re env input n m) : UnlockRule m := by
  have hsync : ∀ (cs : ConsensusState) (msg : Message), ∀ x ∈ syncEntry cs msg,
      ∀ v, x.2 ≠ .signVote v := by
    intro cs msg x hx v
    rw [mem_syncEntry hx]
    simp
  cases hstep.voting with
  | none hsame => exact h.sameVotes hstep.atoms hsame
  | cast hstart _ hcast _ _ =>
    refine h.signed hn hstart hcast.own hcast.trace fun x hx => ?_
    rcases List.mem_cons.mp hx with rfl | hx
    · simp
    · exact hsync _ _ x hx
  | failed hstart _ hfail _ _ =>
    rcases hfail.trace with ht | ht
    · exact h.signed (l := []) hn hstart hfail.own ht (by simp)
    · exact h.signed hn hstart hfail.own ht (hsync _ _)

theorem remembers_fresh (l : Launch) : Remembers nil l.fresh where
  sound := sound_fresh l
  known := fun block hblock => by cases hblock
  locks := fun x hx => by cases hx

theorem unlockRule_run (l : Launch) (env : Env) (events : List (Env × Event)) :
    UnlockRule (l.run env events) := by
  have hboth : Remembers True (l.run env events) ∧ UnlockRule (l.run env events) := by
    refine Launch.run_invariant (P := fun n => Remembers True n ∧ UnlockRule n)
      ⟨remembers_fresh l, ?_⟩
      fun _ _ n m hn hstep => ⟨hn.1.atoms hstep.atoms nilUnlocks_true, hn.2.step hn.1 hstep⟩
    intro cs v older hsuf
    cases List.suffix_nil.mp hsuf
  exact hboth.2

/-- **Unlock rule.** If the trace shows a lock on `block` and, newer than it, a
signed prevote for another hash at the same height, then a round `q` after the lock
and up to the prevote has 2/3+ prevotes for nil or another block: in the node's own
prevote set, or in the proof of lock of a proposal for another block that the node
accepted at a round after `q`, up to the prevote. -/
theorem unlock_rule (l : Launch) (env : Env) (events : List (Env × Event))
    (cs : ConsensusState) (v : Vote) (newer older : List (ConsensusState × Action))
    (htrace : (l.run env events).trace = newer ++ (cs, .signVote v) :: older)
    (htype : v.type = .prevote) (x : Hash) (hx : v.blockHash = some x)
    (cs₀ : ConsensusState) (a : Action) (hlocked : (cs₀, a) ∈ older)
    (hheight : cs₀.height = v.height) (block : Block) (hblock : cs₀.lockedBlock = some block)
    (hne : x ≠ blockHash block) :
    ∃ q, cs₀.lockedRound < q ∧ q ≤ v.round ∧
      ((∃ hash, cs.votes.majority .prevote q = some hash ∧ hash ≠ some (blockHash block)) ∨
        ∃ cs' p, (cs', .acceptProposal p) ∈ older ∧ p.height = v.height ∧ p.polRound = q ∧
          q < p.round ∧ p.round ≤ v.round ∧ blockHash p.block ≠ blockHash block ∧
          validatePOL cs'.config.chainID cs'.validatorSet p = .ok ()) := by
  obtain ⟨hh, hr, hrule⟩ := unlockRule_run l env events cs v older ⟨newer, htrace.symm⟩ htype x hx
  obtain ⟨q, hrq, hq, hcause⟩ := hrule (cs₀, a) hlocked hheight block hblock hne
  refine ⟨q, hrq, hr ▸ hq, ?_⟩
  rcases hcause with ⟨hash, hmaj, hne, -⟩ | ⟨cs', p, h₁, h₂, h₃, h₄, h₅, h₆, h₇⟩
  · exact .inl ⟨hash, hmaj, hne⟩
  · exact .inr ⟨cs', p, h₁, h₂.trans hh.symm, h₃, h₄, hr ▸ h₅, h₆, polValid_iff.mp h₇⟩

end

/-! ## The proof of lock need not come with the prevoted block -/

section released

attribute [local instance] transparent

/-- Validator 1 holds nine tenths of the power and is faulty. -/
def releasedValidators : { vs : ValidatorSet // vs.Wf } :=
  Scenario.validatorSet [(1, 9), (2, 1)] Scenario.isOk_strong

/-- What validator 2 receives: it locks block 10 at round 0, gives the lock up at
round 2 for block 20 with a proof of lock of round 1, and gets block 30 without any
proof of lock at round 4. -/
def releasedEvents : List Event :=
  let b := Scenario.block 1
  [ .proposal (Scenario.proposal 1 1 0 (b 10) (-1) []),
    .vote (Scenario.vote 1 0 .prevote 1 0 (b 10)),
    .vote (Scenario.vote 1 0 .precommit 1 1 none),
    .timeout ⟨1, 1, .precommitWait⟩,
    .proposal (Scenario.proposal 1 1 2 (b 20) 1 [Scenario.vote 1 0 .prevote 1 1 (b 20)]),
    .vote (Scenario.vote 1 0 .precommit 1 3 none),
    .timeout ⟨1, 3, .precommitWait⟩,
    .proposal (Scenario.proposal 1 1 4 (b 30) (-1) []) ]

/-- The run of validator 2. -/
def releasedRun : Node := Scenario.run 2 releasedValidators releasedEvents

/-- A signed vote and what the trace holds before it. -/
def signedAt (trace : List (ConsensusState × Action)) (i : Nat) :
    Option (ConsensusState × Vote × List (ConsensusState × Action)) :=
  match trace.drop i with
  | (cs, .signVote v) :: older => some (cs, v, older)
  | _ => none

theorem signedAt_eq {trace older : List (ConsensusState × Action)} {i : Nat}
    {cs : ConsensusState} {v : Vote} (h : signedAt trace i = some (cs, v, older)) :
    trace = trace.take i ++ (cs, .signVote v) :: older := by
  unfold signedAt at h
  split at h
  · rename_i hdrop
    cases h
    rw [← hdrop, List.take_append_drop]
  · cases h

/-- Validator 2 prevotes block 30 at round 4 after it was locked on block 10, with no
prevote majority after round 0 and no proof of lock in the proposal it holds. -/
theorem releasedRun_prevote : ∃ newer cs v older,
    releasedRun.trace = newer ++ (cs, .signVote v) :: older ∧
    (v.type = .prevote ∧ v.height = 1 ∧ v.round = 4 ∧
      v.blockHash = some (blockHash (Scenario.block 1 30))) ∧
    (∃ x ∈ older, x.1.height = 1 ∧ x.1.lockedBlock = some (Scenario.block 1 10) ∧
      x.1.lockedRound = 0) ∧
    (∀ q ∈ [1, 2, 3, 4], cs.votes.majority .prevote q = none) ∧
    cs.proposal = some (Scenario.proposal 1 1 4 (Scenario.block 1 30) (-1) []) := by
  have hcheck : ∃ x ∈ signedAt releasedRun.trace 3,
      (x.2.1.type = .prevote ∧ x.2.1.height = 1 ∧ x.2.1.round = 4 ∧
        x.2.1.blockHash = some (blockHash (Scenario.block 1 30))) ∧
      (∃ y ∈ x.2.2, y.1.height = 1 ∧ y.1.lockedBlock = some (Scenario.block 1 10) ∧
        y.1.lockedRound = 0) ∧
      (∀ q ∈ [1, 2, 3, 4], x.1.votes.majority .prevote q = none) ∧
      x.1.proposal = some (Scenario.proposal 1 1 4 (Scenario.block 1 30) (-1) []) := by
    decide +kernel
  obtain ⟨⟨cs, v, older⟩, hat, hfacts⟩ := hcheck
  exact ⟨_, cs, v, older, signedAt_eq hat, hfacts⟩

/-- The release may lie in an earlier proposal: here the node prevotes block 30 at
round 4, it was locked on block 10 at round 0, no round in between has a prevote
majority in its own vote set, and the proposal it accepted at round 4 has no proof
of lock. -/
theorem released_by_earlier_proposal : ∃ newer cs v older,
    releasedRun.trace = newer ++ (cs, .signVote v) :: older ∧ v.type = .prevote ∧
    v.round = 4 ∧ v.blockHash = some (blockHash (Scenario.block 1 30)) ∧
    blockHash (Scenario.block 1 30) ≠ blockHash (Scenario.block 1 10) ∧
    (∃ cs₀ a, (cs₀, a) ∈ older ∧ cs₀.height = v.height ∧
      cs₀.lockedBlock = some (Scenario.block 1 10) ∧ cs₀.lockedRound = 0) ∧
    (∀ q, 0 < q → q ≤ v.round → cs.votes.majority .prevote q = none) ∧
    ∃ p, cs.proposal = some p ∧ p.round = v.round ∧ p.polRound = -1 ∧ p.polVotes = [] := by
  obtain ⟨newer, cs, v, older, htrace, ⟨htype, hh, hr, hx⟩, ⟨⟨cs₀, a⟩, hmem, hlock⟩, hnone, hp⟩ :=
    releasedRun_prevote
  refine ⟨newer, cs, v, older, htrace, htype, hr, hx, by decide +kernel,
    ⟨cs₀, a, hmem, hlock.1.trans hh.symm, hlock.2⟩, fun q hq hle => ?_, _, hp, hr.symm, rfl, rfl⟩
  apply hnone
  have hcases : q = 1 ∨ q = 2 ∨ q = 3 ∨ q = 4 := by omega
  simpa using hcases

/-- The unlock rule at that run: the proposal of round 2 released the lock. -/
theorem unlock_rule_releasedRun : ∃ newer cs v older cs₀ a,
    releasedRun.trace = newer ++ (cs, .signVote v) :: older ∧ (cs₀, a) ∈ older ∧
    cs₀.lockedBlock = some (Scenario.block 1 10) ∧
    ∃ q, cs₀.lockedRound < q ∧ q ≤ v.round ∧
      ((∃ hash, cs.votes.majority .prevote q = some hash ∧
          hash ≠ some (blockHash (Scenario.block 1 10))) ∨
        ∃ cs' p, (cs', .acceptProposal p) ∈ older ∧ p.height = v.height ∧ p.polRound = q ∧
          q < p.round ∧ p.round ≤ v.round ∧
          blockHash p.block ≠ blockHash (Scenario.block 1 10) ∧
          validatePOL cs'.config.chainID cs'.validatorSet p = .ok ()) := by
  obtain ⟨newer, cs, v, older, htrace, ⟨htype, hh, hr, hx⟩, ⟨⟨cs₀, a⟩, hmem, hlock⟩, -, -⟩ :=
    releasedRun_prevote
  refine ⟨newer, cs, v, older, cs₀, a, htrace, hmem, hlock.2.1, ?_⟩
  rw [releasedRun, Scenario.run] at htrace
  exact unlock_rule (Scenario.launch 2 releasedValidators) (Scenario.env 2)
    (releasedEvents.map fun e => (Scenario.env 2, e)) cs v newer older htrace htype _ hx cs₀ a
    hmem (hlock.1.trans hh.symm) _ hlock.2.1 (by decide +kernel)

end released

end Leaderberry
