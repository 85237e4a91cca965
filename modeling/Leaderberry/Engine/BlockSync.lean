import Leaderberry.Types.Commit

/-!
# Block synchronisation (`engine/blocksync.go`)

The `BlockSyncer`. The store, the peers and the callbacks are outside: a call returns what
it did to them (`SyncAction`), and their answers are arguments, such as whether the store
accepts a block. Callbacks run in goroutines of their own; only that they were started is
kept.

- `receiveBlock`, `updateTargetHeight`, `requestMissingBlocks`, `checkTimeouts`: the calls.
- `receiveBlock_saves_iff`: when a block goes to the store.
-/

namespace Leaderberry

/-- `BlockSyncState`. -/
inductive BlockSyncState where
  | idle
  | syncing
  | caughtUp
deriving DecidableEq

/-- `blockRequest`. -/
structure BlockRequest where
  height : Int
  peerID : GoString
  requestAt : Int
deriving DecidableEq

/-- `BlockSyncer`, without the peers and the control fields. `onBlockCommitted` and
`onCaughtUp` tell whether the callback is set. -/
structure BlockSyncer where
  chainID : GoString
  state : BlockSyncState
  valSet : Option ValidatorSet
  startHeight : Int
  targetHeight : Int
  currentHeight : Int
  pendingRequests : GoMap Int BlockRequest
  onBlockCommitted : Bool
  onCaughtUp : Bool

/-- `MaxPendingRequests`. -/
def maxPendingRequests : Nat := 5

/-- `BlockSyncTimeout`, in nanoseconds. -/
def blockSyncTimeout : Int := 10 * 10 ^ 9

/-- What the syncer asks a peer of its `peerSet` for. -/
structure SyncPeer where
  peerID : GoString
  height : Int
deriving DecidableEq

/-- What a call of the syncer does outside of it. -/
inductive SyncAction where
  | saveBlock (b : Block) (c : Commit)
  | blockCommitted (b : Block) (c : Commit)
  | caughtUp
deriving DecidableEq

/-- Errors of `ReceiveBlock`, with the data their messages carry. -/
inductive BlockSyncError where
  | nilBlockOrCommit
  | commitHeightMismatch (commitHeight blockHeight : Int)
  | invalidCommit (e : CommitError)
  | saveFailed
deriving DecidableEq

/-- A call of the syncer: the syncer afterwards, what was done, in order, and the error. -/
structure SyncCall where
  syncer : BlockSyncer
  actions : List SyncAction
  error : Option BlockSyncError

/-- `NewBlockSyncer`, with or without the two callbacks. -/
def newBlockSyncer (chainID : GoString) (valSet : Option ValidatorSet)
    (onBlockCommitted onCaughtUp : Bool) : BlockSyncer where
  chainID := chainID
  state := .idle
  valSet := valSet
  startHeight := 0
  targetHeight := 0
  currentHeight := 0
  pendingRequests := ∅
  onBlockCommitted := onBlockCommitted
  onCaughtUp := onCaughtUp

namespace BlockSyncer

/-- The height the syncer waits for; `int64` addition wraps around. -/
def nextHeight (bs : BlockSyncer) : Int := wrapInt64 (bs.currentHeight + 1)

/-- A call that stops early. -/
def rejected (bs : BlockSyncer) (error : Option BlockSyncError) : SyncCall := ⟨bs, [], error⟩

/-- The end of `ReceiveBlock`, once the block is stored. -/
def progress (block : Block) (commit : Commit) (bs : BlockSyncer) : SyncCall :=
  let bs := { bs with pendingRequests := bs.pendingRequests.erase block.header.height }
  if block.header.height = bs.nextHeight then
    let bs := { bs with currentHeight := block.header.height }
    let committed := if bs.onBlockCommitted then [.blockCommitted block commit] else []
    if bs.targetHeight ≤ bs.currentHeight ∧ bs.state = .syncing then
      ⟨{ bs with state := .caughtUp },
        .saveBlock block commit :: committed ++ if bs.onCaughtUp then [.caughtUp] else [], none⟩
    else ⟨bs, .saveBlock block commit :: committed, none⟩
  else ⟨bs, [.saveBlock block commit], none⟩

/-- `UpdateTargetHeight`. -/
def updateTargetHeight (peers : List SyncPeer) (bs : BlockSyncer) : SyncCall :=
  let bs := { bs with
    targetHeight := peers.foldl (fun height peer => max height peer.height) bs.currentHeight }
  if bs.targetHeight ≤ bs.currentHeight then
    if bs.state = .syncing then
      ⟨{ bs with state := .caughtUp }, if bs.onCaughtUp then [.caughtUp] else [], none⟩
    else ⟨bs, [], none⟩
  else if bs.state = .idle ∨ bs.state = .caughtUp then ⟨{ bs with state := .syncing }, [], none⟩
  else ⟨bs, [], none⟩

/-- `findPeerForHeight`; the empty string if there is none. -/
def findPeerForHeight (peers : List SyncPeer) (height : Int) : GoString :=
  ((peers.find? fun peer => height ≤ peer.height).map SyncPeer.peerID).getD []

/-- One height of the loop of `requestMissingBlocks`; `request` tells whether
`RequestBlock` returned nil. -/
def requestHeight (peers : List SyncPeer) (request : GoString → Int → Bool) (now height : Int)
    (bs : BlockSyncer) : BlockSyncer :=
  if (bs.pendingRequests.lookup height).isSome then bs
  else
    let peerID := findPeerForHeight peers height
    if peerID = [] then bs
    else if request peerID height then
      { bs with pendingRequests := bs.pendingRequests.insert height ⟨height, peerID, now⟩ }
    else bs

/-- The loop of `requestMissingBlocks`, for at most `rounds` heights. It ends by itself
after `targetHeight - currentHeight` rounds, unless the target is the greatest `int64`:
then `height++` wraps around. -/
def requestLoop (peers : List SyncPeer) (request : GoString → Int → Bool) (now : Int) :
    Nat → Int → BlockSyncer → BlockSyncer
  | 0, _, bs => bs
  | rounds + 1, height, bs =>
    if bs.targetHeight < height ∨ maxPendingRequests ≤ bs.pendingRequests.entries.length then bs
    else
      requestLoop peers request now rounds (wrapInt64 (height + 1))
        (bs.requestHeight peers request now height)

/-- `requestMissingBlocks`. -/
def requestMissingBlocks (peers : List SyncPeer) (request : GoString → Int → Bool) (now : Int)
    (rounds : Nat) (bs : BlockSyncer) : BlockSyncer :=
  if bs.state ≠ .syncing then bs
  else if maxPendingRequests ≤ bs.pendingRequests.entries.length then bs
  else requestLoop peers request now rounds bs.nextHeight bs

/-- A round of the loop changes nothing but the pending requests. -/
theorem requestHeight_frame (peers : List SyncPeer) (request : GoString → Int → Bool)
    (now height : Int) (bs : BlockSyncer) :
    ∃ pending, bs.requestHeight peers request now height =
      { bs with pendingRequests := pending } := by
  unfold requestHeight
  dsimp only
  split_ifs
  · exact ⟨_, rfl⟩
  · exact ⟨_, rfl⟩
  · exact ⟨_, rfl⟩
  · exact ⟨_, rfl⟩

theorem requestLoop_frame (peers : List SyncPeer) (request : GoString → Int → Bool) (now : Int)
    (rounds : Nat) (height : Int) (bs : BlockSyncer) :
    ∃ pending, requestLoop peers request now rounds height bs =
      { bs with pendingRequests := pending } := by
  induction rounds generalizing height bs with
  | zero => exact ⟨_, rfl⟩
  | succ rounds ih =>
    rw [requestLoop]
    split
    · exact ⟨_, rfl⟩
    · obtain ⟨next, hnext⟩ := requestHeight_frame peers request now height bs
      obtain ⟨pending, hloop⟩ :=
        ih (wrapInt64 (height + 1)) (bs.requestHeight peers request now height)
      rw [hnext] at hloop ⊢
      exact ⟨pending, hloop⟩

theorem requestMissingBlocks_frame (peers : List SyncPeer) (request : GoString → Int → Bool)
    (now : Int) (rounds : Nat) (bs : BlockSyncer) :
    ∃ pending, bs.requestMissingBlocks peers request now rounds =
      { bs with pendingRequests := pending } := by
  unfold requestMissingBlocks
  split_ifs
  · exact ⟨_, rfl⟩
  · exact ⟨_, rfl⟩
  · exact requestLoop_frame ..

/-- `checkTimeouts`. -/
def checkTimeouts (now : Int) (bs : BlockSyncer) : BlockSyncer :=
  { bs with
    pendingRequests := bs.pendingRequests.entries.foldl
      (fun pending request =>
        if blockSyncTimeout < now - request.2.requestAt then pending.erase request.1 else pending)
      bs.pendingRequests }

/-- `UpdateValidatorSet`. -/
def updateValidatorSet (valSet : Option ValidatorSet) (bs : BlockSyncer) : BlockSyncer :=
  { bs with valSet }

variable [Externals]

/-- `ReceiveBlock`; `saved` is the answer of the store. -/
def receiveBlock (saved : Bool) (block : Option Block) (commit : Option Commit)
    (bs : BlockSyncer) : SyncCall :=
  match block, commit with
  | some block, some commit =>
    let height := block.header.height
    if commit.height ≠ height then
      bs.rejected (some (.commitHeightMismatch commit.height height))
    else if bs.pendingRequests.lookup height = none ∧ height ≠ bs.nextHeight then
      -- An unsolicited block that is not the next one is ignored.
      bs.rejected none
    else
      match verifyCommit bs.chainID bs.valSet (blockHash block) height commit with
      | .error e => bs.rejected (some (.invalidCommit e))
      | .ok () =>
        if saved then bs.progress block commit
        else ⟨bs, [.saveBlock block commit], some .saveFailed⟩
  | _, _ => bs.rejected (some .nilBlockOrCommit)

omit [Externals] in
theorem saveBlock_mem_progress (block : Block) (commit : Commit) (bs : BlockSyncer) :
    .saveBlock block commit ∈ (bs.progress block commit).actions := by
  unfold progress
  dsimp only
  split
  · split <;> exact List.mem_cons_self ..
  · exact List.mem_cons_self ..

/-- **A block goes to the store exactly when it was asked for or is the next one, and the
commit that came with it verifies for its hash.** -/
theorem receiveBlock_saves_iff (saved : Bool) (block : Block) (commit : Commit)
    (bs : BlockSyncer) :
    .saveBlock block commit ∈ (bs.receiveBlock saved (some block) (some commit)).actions ↔
      (bs.pendingRequests.lookup block.header.height ≠ none ∨
        block.header.height = bs.nextHeight) ∧
      verifyCommit bs.chainID bs.valSet (blockHash block) block.header.height (some commit)
        = .ok () := by
  unfold receiveBlock
  dsimp only
  split
  · rename_i hheight
    refine iff_of_false List.not_mem_nil fun h => ?_
    exact hheight (verifyCommit_target h.2).1
  split
  · rename_i hunsolicited
    refine iff_of_false List.not_mem_nil fun h => ?_
    exact h.1.elim (fun hp => hp hunsolicited.1) fun hn => hunsolicited.2 hn
  rename_i hwanted
  cases hverify : verifyCommit bs.chainID bs.valSet (blockHash block) block.header.height
      (some commit) with
  | error e => exact iff_of_false List.not_mem_nil fun h => nomatch h.2
  | ok =>
    refine iff_of_true ?_ ⟨?_, rfl⟩
    · dsimp only
      split
      · exact saveBlock_mem_progress block commit bs
      · exact List.mem_singleton.mpr rfl
    · by_contra hnone
      exact hwanted (not_or.mp hnone |>.imp not_not.mp id)

end BlockSyncer

end Leaderberry
