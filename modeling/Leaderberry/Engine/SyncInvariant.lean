import Leaderberry.Engine.RequestLoop
import Leaderberry.Engine.SyncRun

/-!
# The bookkeeping of the block syncer

After one `Start`, and with heights far from the end of `int64`, the syncer keeps its books
in order through every sequence of calls (`Bookkept`): at most five requests are pending,
and all of them are above its height. `sync_bookkeeping` adds what a single call can do to
the height and to the state, and that a `ReceiveBlock` that fails changes nothing.
-/

namespace Leaderberry

namespace BlockSyncer

variable {bs : BlockSyncer}

/-- Heights go up to here. -/
def heightBound : Int := 2 ^ 62

/-- The books are in order. A target matters only while syncing. -/
structure Bookkept (bs : BlockSyncer) : Prop where
  card_le : bs.pendingHeights.card ≤ maxPendingRequests
  above : ∀ h ∈ bs.pendingHeights, bs.currentHeight < h
  nonneg : 0 ≤ bs.currentHeight
  le : bs.currentHeight ≤ heightBound
  target_le : bs.state = .syncing → bs.targetHeight ≤ heightBound

/-- The next height does not wrap around. -/
theorem nextHeight_eq (hlow : 0 ≤ bs.currentHeight) (hhigh : bs.currentHeight ≤ heightBound) :
    bs.nextHeight = bs.currentHeight + 1 := by
  unfold heightBound at hhigh
  refine wrapInt64_eq_self ?_ ?_
  · unfold minInt64
    omega
  · unfold maxInt64
    omega

theorem mem_pendingHeights {h : Int} :
    h ∈ bs.pendingHeights ↔ h ∈ bs.pendingRequests := by
  rw [pendingHeights, List.mem_toFinset, AList.mem_keys]

namespace Bookkept

variable {bs bs' : BlockSyncer}

/-- Fewer requests, everything else the same. -/
theorem shrink (h : bs.Bookkept) (hpending : bs'.pendingHeights ⊆ bs.pendingHeights)
    (hcurrent : bs'.currentHeight = bs.currentHeight)
    (htarget : bs'.targetHeight = bs.targetHeight) (hstate : bs'.state = bs.state) :
    bs'.Bookkept where
  card_le := (Finset.card_le_card hpending).trans h.card_le
  above := fun i hi => by
    rw [hcurrent]
    exact h.above i (hpending hi)
  nonneg := hcurrent ▸ h.nonneg
  le := hcurrent ▸ h.le
  target_le := by
    rw [hstate, htarget]
    exact h.target_le

/-! ## Targets and requests -/

theorem updateTargetHeight (h : bs.Bookkept) {peers : List SyncPeer}
    (hpeers : ∀ peer ∈ peers, peer.height ≤ heightBound) :
    (bs.updateTargetHeight peers).syncer.Bookkept := by
  obtain ⟨hcurrent, hpending, htarget, -⟩ := updateTargetHeight_eq peers bs
  have hheights : (bs.updateTargetHeight peers).syncer.pendingHeights = bs.pendingHeights := by
    unfold pendingHeights
    rw [hpending]
  constructor
  · rw [hheights]
    exact h.card_le
  · rw [hheights, hcurrent]
    exact h.above
  · rw [hcurrent]
    exact h.nonneg
  · rw [hcurrent]
    exact h.le
  · -- the target is the current height or a peer's
    intro _
    rw [htarget, ← not_lt, lt_foldl_max_iff]
    rintro (hlt | ⟨peer, hpeer, hlt⟩)
    · exact absurd hlt (not_lt.mpr h.le)
    · exact absurd hlt (not_lt.mpr (hpeers peer hpeer))

/-- A request for a height above the current one, while there is room. -/
theorem requestHeight (h : bs.Bookkept) {height : Int} (hheight : bs.currentHeight < height)
    (hroom : bs.pendingHeights.card < maxPendingRequests) (peers : List SyncPeer)
    (request : GoString → Int → Bool) (now : Int) :
    (bs.requestHeight peers request now height).Bookkept ∧
      (bs.requestHeight peers request now height).currentHeight = bs.currentHeight ∧
      (bs.requestHeight peers request now height).state = bs.state := by
  have hpending := pendingHeights_requestHeight peers request now height bs
  obtain ⟨pending, hframe⟩ := requestHeight_frame peers request now height bs
  rw [hframe] at hpending ⊢
  refine ⟨?_, rfl, rfl⟩
  split_ifs at hpending
  · -- the request was taken
    constructor
    · rw [hpending]
      exact (Finset.card_insert_le ..).trans hroom
    · intro i hi
      rw [hpending, Finset.mem_insert] at hi
      rcases hi with rfl | hi
      · exact hheight
      · exact h.above i hi
    · exact h.nonneg
    · exact h.le
    · exact h.target_le
  · exact h.shrink hpending.subset rfl rfl rfl

/-- The loop over heights, from any height above the current one. -/
theorem requestLoop (peers : List SyncPeer) (request : GoString → Int → Bool) (now : Int)
    (rounds : Nat) : ∀ {bs : BlockSyncer} {height : Int}, bs.Bookkept → bs.state = .syncing →
      bs.currentHeight < height →
      (BlockSyncer.requestLoop peers request now rounds height bs).Bookkept := by
  induction rounds with
  | zero =>
    intro bs height h _ _
    exact h
  | succ rounds ih =>
    intro bs height h hstate hheight
    rw [BlockSyncer.requestLoop]
    split
    · exact h
    · rename_i hgoes
      rw [not_or, not_lt, not_le, ← card_pendingHeights] at hgoes
      obtain ⟨hnext, hcurrent, hsame⟩ := h.requestHeight hheight hgoes.2 peers request now
      -- below the target the height does not wrap around
      have hwrap : wrapInt64 (height + 1) = height + 1 := by
        have hlow := h.nonneg
        have hhigh := hgoes.1.trans (h.target_le hstate)
        unfold heightBound at hhigh
        refine wrapInt64_eq_self ?_ ?_
        · unfold minInt64
          omega
        · unfold maxInt64
          omega
      rw [hwrap]
      exact ih hnext (hsame.trans hstate) (by omega)

theorem requestMissingBlocks (h : bs.Bookkept) (peers : List SyncPeer)
    (request : GoString → Int → Bool) (now : Int) (rounds : Nat) :
    (bs.requestMissingBlocks peers request now rounds).Bookkept := by
  unfold BlockSyncer.requestMissingBlocks
  by_cases hstate : bs.state = .syncing
  · rw [if_neg (not_not.mpr hstate)]
    split
    · exact h
    · refine requestLoop peers request now rounds h hstate ?_
      rw [nextHeight_eq h.nonneg h.le]
      exact lt_add_one _
  · rw [if_pos hstate]
    exact h

/-! ## Timeouts -/

/-- Erasing some keys leaves no new ones. -/
theorem mem_of_mem_foldl_erase {V : Type} (p : (Σ _ : Int, V) → Prop) [DecidablePred p]
    (l : List (Σ _ : Int, V)) {pending : GoMap Int V} {h : Int}
    (hmem : h ∈ l.foldl (fun pending request =>
      if p request then pending.erase request.1 else pending) pending) : h ∈ pending := by
  induction l generalizing pending with
  | nil => exact hmem
  | cons request l ih =>
    have hnext := ih hmem
    dsimp only at hnext
    split at hnext
    · exact (AList.mem_erase.mp hnext).2
    · exact hnext

theorem checkTimeouts (h : bs.Bookkept) (now : Int) : (bs.checkTimeouts now).Bookkept := by
  refine h.shrink (fun i hi => ?_) rfl rfl rfl
  rw [mem_pendingHeights] at hi ⊢
  exact mem_of_mem_foldl_erase _ _ hi

end Bookkept

/-! ## Blocks -/

/-- The end of `ReceiveBlock`: the request is done, the next height counts, and a syncer that
gets to its target has caught up. -/
theorem progress_fields (block : Block) (commit : Commit) (bs : BlockSyncer) :
    (bs.progress block commit).error = none ∧
    (bs.progress block commit).syncer.pendingRequests =
      bs.pendingRequests.erase block.header.height ∧
    (bs.progress block commit).syncer.targetHeight = bs.targetHeight ∧
    ((bs.progress block commit).syncer.state = bs.state ∨
      (bs.state = .syncing ∧ (bs.progress block commit).syncer.state = .caughtUp ∧
        bs.targetHeight ≤ (bs.progress block commit).syncer.currentHeight)) := by
  unfold progress
  dsimp only
  split
  · split
    · rename_i hdone
      exact ⟨rfl, rfl, rfl, .inr ⟨hdone.2, rfl, hdone.1⟩⟩
    · exact ⟨rfl, rfl, rfl, .inl rfl⟩
  · exact ⟨rfl, rfl, rfl, .inl rfl⟩

theorem Bookkept.progress (h : bs.Bookkept) {block : Block} (commit : Commit)
    (hblock : block.header.height ≤ heightBound) :
    (bs.progress block commit).syncer.Bookkept := by
  obtain ⟨hcurrent, -, -, -⟩ := progress_spec block commit bs
  obtain ⟨-, hpending, htarget, hstate⟩ := progress_fields block commit bs
  have hnext := nextHeight_eq h.nonneg h.le
  have hmem : ∀ i, i ∈ (bs.progress block commit).syncer.pendingHeights ↔
      i ≠ block.header.height ∧ i ∈ bs.pendingHeights := by
    intro i
    rw [mem_pendingHeights, hpending, AList.mem_erase, mem_pendingHeights]
  have hnonneg := h.nonneg
  have hle := h.le
  constructor
  · exact (Finset.card_le_card fun i hi => ((hmem i).mp hi).2).trans h.card_le
  · -- what is pending above the old height and is not the new one is above the new one
    intro i hi
    obtain ⟨hne, hi⟩ := (hmem i).mp hi
    have habove := h.above i hi
    rw [hcurrent]
    split_ifs with heq
    · omega
    · exact habove
  · rw [hcurrent]
    split_ifs with heq
    · omega
    · exact hnonneg
  · rw [hcurrent]
    split_ifs
    · exact hblock
    · exact hle
  · rcases hstate with hsame | ⟨-, hcaught, -⟩
    · rw [hsame, htarget]
      exact h.target_le
    · rw [hcaught]
      rintro ⟨⟩

variable [Externals]

theorem Bookkept.receiveBlock (h : bs.Bookkept) (saved : Bool) {block : Option Block}
    (commit : Option Commit) (hblock : ∀ b, block = some b → b.header.height ≤ heightBound) :
    (bs.receiveBlock saved block commit).syncer.Bookkept := by
  rcases receiveBlock_cases saved block commit bs with ⟨e, hcall⟩ | ⟨b, c, hb, -, -, hcall⟩
  · rw [hcall]
    exact h
  · rw [hcall]
    split
    · exact h.progress c (hblock b hb)
    · exact h

theorem receiveBlock_of_not_saved (bs : BlockSyncer) (block : Option Block)
    (commit : Option Commit) : (bs.receiveBlock false block commit).syncer = bs := by
  rcases receiveBlock_cases false block commit bs with ⟨e, hcall⟩ | ⟨b, c, -, -, -, hcall⟩
  · rw [hcall]
    rfl
  · rw [hcall]
    rfl

/-- `ReceiveBlock` with an error leaves the syncer as it was and saves nothing. -/
theorem receiveBlock_error {saved : Bool} {block : Option Block} {commit : Option Commit}
    (herror : (bs.receiveBlock saved block commit).error ≠ none) :
    (bs.receiveBlock saved block commit).syncer = bs ∧
      (saved = true → (bs.receiveBlock saved block commit).actions = []) := by
  rcases receiveBlock_cases saved block commit bs with ⟨e, hcall⟩ | ⟨b, c, -, -, -, hcall⟩
  · rw [hcall]
    exact ⟨rfl, fun _ => rfl⟩
  · rw [hcall] at herror ⊢
    by_cases hsaved : saved = true
    · rw [if_pos hsaved] at herror
      exact absurd (progress_fields b c bs).1 herror
    · rw [if_neg hsaved]
      exact ⟨rfl, fun h => absurd h hsaved⟩

end BlockSyncer

open BlockSyncer

/-! ## Runs -/

section runs

variable [Externals]

/-- A call of a syncer that stays started, with heights within the bound. -/
def SyncOp.Bounded : SyncOp → Prop
  | .start => False
  | .stop => False
  | .updateTargetHeight peers => ∀ peer ∈ peers, 0 ≤ peer.height ∧ peer.height ≤ heightBound
  | .requestMissingBlocks peers _ _ _ =>
    ∀ peer ∈ peers, 0 ≤ peer.height ∧ peer.height ≤ heightBound
  | .receiveBlock _ block _ =>
    ∀ b, block = some b → 0 ≤ b.header.height ∧ b.header.height ≤ heightBound
  | .checkTimeouts _ => True
  | .updateValidatorSet _ => True

namespace SyncNode

variable {node : SyncNode}

theorem step_bookkept (h : node.syncer.Bookkept) {op : SyncOp} (hop : op.Bounded) :
    (node.step op).syncer.Bookkept := by
  cases op with
  | start => exact hop.elim
  | stop => exact hop.elim
  | updateTargetHeight peers => exact h.updateTargetHeight fun peer hpeer => (hop peer hpeer).2
  | requestMissingBlocks peers request now rounds =>
    exact h.requestMissingBlocks peers request now rounds
  | checkTimeouts now => exact h.checkTimeouts now
  | receiveBlock saved block commit =>
    exact h.receiveBlock saved commit fun b hb => (hop b hb).2
  | updateValidatorSet valSet => exact h.shrink (Finset.Subset.refl _) rfl rfl rfl

theorem run_bookkept (h : node.syncer.Bookkept) {ops : List SyncOp} (hops : ∀ op ∈ ops, op.Bounded)
    :
    (node.run ops).syncer.Bookkept := by
  induction ops generalizing node with
  | nil => exact h
  | cons op ops ih =>
    obtain ⟨hop, hrest⟩ := List.forall_mem_cons.mp hops
    exact ih (step_bookkept h hop) hrest

/-- The state becomes caught up only from syncing, at the target. -/
theorem step_caughtUp {op : SyncOp} (hop : op.Bounded)
    (hafter : (node.step op).syncer.state = .caughtUp) :
    node.syncer.state = .caughtUp ∨ (node.syncer.state = .syncing ∧
      (node.step op).syncer.targetHeight ≤ (node.step op).syncer.currentHeight) := by
  cases op with
  | start => exact hop.elim
  | stop => exact hop.elim
  | updateTargetHeight peers =>
    obtain ⟨hcurrent, -, -, hstate⟩ := updateTargetHeight_eq peers node.syncer
    have hafter : (node.syncer.updateTargetHeight peers).syncer.state = .caughtUp := hafter
    show _ ∨ _ ∧ (node.syncer.updateTargetHeight peers).syncer.targetHeight ≤
      (node.syncer.updateTargetHeight peers).syncer.currentHeight
    rw [hcurrent]
    split_ifs at hstate with hlt hsyncing
    · cases hstate.symm.trans hafter
    · exact .inr ⟨hsyncing, not_lt.mp hlt⟩
    · exact .inl (hstate.symm.trans hafter)
  | requestMissingBlocks peers request now rounds =>
    obtain ⟨pending, hframe⟩ :=
      node.syncer.requestMissingBlocks_frame peers request now rounds
    exact .inl ((congrArg BlockSyncer.state hframe).symm.trans hafter)
  | checkTimeouts now => exact .inl hafter
  | updateValidatorSet valSet => exact .inl hafter
  | receiveBlock saved block commit =>
    have hafter : (node.syncer.receiveBlock saved block commit).syncer.state = .caughtUp := hafter
    show _ ∨ _ ∧ (node.syncer.receiveBlock saved block commit).syncer.targetHeight ≤
      (node.syncer.receiveBlock saved block commit).syncer.currentHeight
    rcases receiveBlock_cases saved block commit node.syncer with
      ⟨e, hcall⟩ | ⟨b, c, -, -, -, hcall⟩
    · rw [hcall] at hafter
      exact .inl hafter
    · rw [hcall] at hafter ⊢
      by_cases hsaved : saved = true
      · rw [if_pos hsaved] at hafter ⊢
        obtain ⟨-, -, htarget, hsame | ⟨hsyncing, -, hle⟩⟩ := progress_fields b c node.syncer
        · exact .inl (hsame.symm.trans hafter)
        · exact .inr ⟨hsyncing, htarget.trans_le hle⟩
      · rw [if_neg hsaved] at hafter
        exact .inl hafter

/-- A new syncer in front of a store. -/
def new (syncer : BlockSyncer) (storeHeight : Int) : SyncNode where
  syncer := syncer
  started := false
  storeHeight := storeHeight
  firstStart := none
  log := []

omit [Externals] in
theorem bookkept_start (chainID : GoString) (valSet : Option ValidatorSet)
    (onBlockCommitted onCaughtUp : Bool) {storeHeight : Int} (hlow : 0 ≤ storeHeight)
    (hhigh : storeHeight ≤ heightBound) :
    (new (newBlockSyncer chainID valSet onBlockCommitted onCaughtUp)
      storeHeight).start.syncer.Bookkept where
  card_le := Nat.zero_le _
  above := fun h hh => absurd hh (Finset.notMem_empty h)
  nonneg := hlow
  le := hhigh
  target_le := by rintro ⟨⟩

end SyncNode

/-- **The bookkeeping of the syncer.** After one `Start` of a new syncer, and any calls with
heights up to 2^62, at most five requests are pending, all above the current height. A
further call changes the height only to the next one, by a block that it saves and whose
commit verifies with the validators held then. It makes the syncer caught up only from
syncing, at the target. And if it is a `ReceiveBlock` that returns an error, it changes
nothing. -/
theorem sync_bookkeeping (chainID : GoString) (valSet : Option ValidatorSet)
    (onBlockCommitted onCaughtUp : Bool) {storeHeight : Int} (hlow : 0 ≤ storeHeight)
    (hhigh : storeHeight ≤ heightBound) {ops : List SyncOp} (hops : ∀ op ∈ ops, op.Bounded)
    {node : SyncNode}
    (hnode : node = (SyncNode.new (newBlockSyncer chainID valSet onBlockCommitted onCaughtUp)
      storeHeight).start.run ops) :
    node.syncer.pendingRequests.entries.length ≤ maxPendingRequests ∧
    (∀ h ∈ node.syncer.pendingRequests, node.syncer.currentHeight < h) ∧
    (∀ op : SyncOp, op.Bounded →
      (node.step op).syncer.currentHeight = node.syncer.currentHeight ∨
      ((node.step op).syncer.currentHeight = node.syncer.currentHeight + 1 ∧
        ∃ b c, op = .receiveBlock true (some b) (some c) ∧
          b.header.height = node.syncer.currentHeight + 1 ∧
          verifyCommit node.syncer.chainID node.syncer.valSet (blockHash b) b.header.height
            (some c) = .ok () ∧
          .saveBlock b c ∈ (node.syncer.receiveBlock true (some b) (some c)).actions)) ∧
    (∀ op : SyncOp, op.Bounded → (node.step op).syncer.state = .caughtUp →
      node.syncer.state = .caughtUp ∨ (node.syncer.state = .syncing ∧
        (node.step op).syncer.targetHeight ≤ (node.step op).syncer.currentHeight)) ∧
    ∀ saved block commit, (node.syncer.receiveBlock saved block commit).error ≠ none →
      (node.step (.receiveBlock saved block commit)).syncer = node.syncer ∧
      (node.step (.receiveBlock saved block commit)).storeHeight = node.storeHeight := by
  have hbook : node.syncer.Bookkept := by
    rw [hnode]
    exact SyncNode.run_bookkept
      (SyncNode.bookkept_start chainID valSet onBlockCommitted onCaughtUp hlow hhigh) hops
  refine ⟨card_pendingHeights node.syncer ▸ hbook.card_le,
    fun h hh => hbook.above h (mem_pendingHeights.mpr hh), fun op hop => ?_,
    fun op hop => SyncNode.step_caughtUp hop, fun saved block commit herror => ?_⟩
  · have hnext := nextHeight_eq hbook.nonneg hbook.le
    rcases node.step_cases op with ⟨rfl, -⟩ | ⟨hcurrent, -⟩ |
      ⟨hcurrent, -, saved, b, c, rfl, hb, hverify, hsave⟩
    · exact hop.elim
    · exact .inl hcurrent
    · rw [hnext] at hcurrent hb
      cases saved with
      | false =>
        -- a block that is not saved leaves the height alone
        have hsame : (node.step (.receiveBlock false (some b) (some c))).syncer = node.syncer :=
          receiveBlock_of_not_saved ..
        exact .inl (congrArg BlockSyncer.currentHeight hsame)
      | true => exact .inr ⟨hcurrent, b, c, rfl, hb, hverify, hsave⟩
  · obtain ⟨hsame, hnothing⟩ := receiveBlock_error herror
    refine ⟨hsame, ?_⟩
    show (if saved then _ else node.storeHeight) = node.storeHeight
    split
    · rename_i hsaved
      rw [hnothing hsaved]
      rfl
    · rfl

end runs

/-! ## One block -/

section block

attribute [local instance] transparent

/-- A peer reports height 2, the blocks up to it are requested, and the first one arrives. -/
def firstBlock : List SyncOp :=
  [.updateTargetHeight [⟨[9], 2⟩], Scenario.request, Scenario.deliver 1]

theorem bounded_firstBlock : ∀ op ∈ firstBlock, op.Bounded := by
  have hpeers : ∀ peer ∈ [(⟨[9], 2⟩ : SyncPeer)], 0 ≤ peer.height ∧ peer.height ≤ heightBound := by
    decide
  refine List.forall_mem_cons.mpr ⟨hpeers, List.forall_mem_cons.mpr ⟨hpeers, ?_⟩⟩
  refine List.forall_mem_cons.mpr ⟨?_, List.forall_mem_nil _⟩
  rintro b ⟨⟩
  decide

/-- The syncer is at height 1, and the request for height 2 is left. -/
theorem sync_bookkeeping_firstBlock :
    ((SyncNode.new (newBlockSyncer [] (some (Scenario.validatorSet [(1, 1)] Scenario.isOk_sole).1)
      true true) 0).start.run firstBlock).syncer.pendingRequests.keys = [2] ∧
    ((SyncNode.new (newBlockSyncer [] (some (Scenario.validatorSet [(1, 1)] Scenario.isOk_sole).1)
      true true) 0).start.run firstBlock).syncer.currentHeight = 1 ∧
    ∀ h ∈ ((SyncNode.new (newBlockSyncer []
        (some (Scenario.validatorSet [(1, 1)] Scenario.isOk_sole).1) true true)
        0).start.run firstBlock).syncer.pendingRequests,
      ((SyncNode.new (newBlockSyncer [] (some (Scenario.validatorSet [(1, 1)] Scenario.isOk_sole).1)
        true true) 0).start.run firstBlock).syncer.currentHeight < h :=
  ⟨by decide +kernel, by decide +kernel,
    (sync_bookkeeping [] _ true true le_rfl (by decide) bounded_firstBlock rfl).2.1⟩

end block

end Leaderberry
