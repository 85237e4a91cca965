import Leaderberry.Engine.BlockSync
import Leaderberry.Engine.Scenario

/-!
# Runs of the block syncer

A `SyncNode` is a `BlockSyncer` with its store and the record of what it did. The store is
known by its height, the largest height saved so far.

- `sync_order_iff`: the blocks of the heights up to `n`, each delivered once, take the
  syncer to `n` exactly when they arrive in ascending order. A block that is ahead of its
  turn is stored and then never counted.
- `no_skip_iff`: the heights that the syncer passed were all saved exactly as long as no
  `Start` finds a gap in the store. `Start` takes the height of the store as the height of
  the syncer.
-/

namespace Leaderberry

/-- `firstStart` remembers what `Start` read from the store the first time; `log` is what
the syncer did, oldest first. -/
structure SyncNode where
  syncer : BlockSyncer
  started : Bool
  storeHeight : Int
  firstStart : Option Int
  log : List SyncAction

/-- The calls of a syncer, with the answers of the code outside. -/
inductive SyncOp where
  | start
  | stop
  | updateTargetHeight (peers : List SyncPeer)
  | requestMissingBlocks (peers : List SyncPeer) (request : GoString → Int → Bool) (now : Int)
      (rounds : Nat)
  | checkTimeouts (now : Int)
  | receiveBlock (saved : Bool) (block : Option Block) (commit : Option Commit)
  | updateValidatorSet (valSet : Option ValidatorSet)

/-- The heights passed to `SaveBlock`. -/
def savedHeights (actions : List SyncAction) : List Int :=
  actions.filterMap fun
    | .saveBlock block _ => some block.header.height
    | _ => none

/-- The heights passed to `onBlockCommitted`. -/
def committedHeights (actions : List SyncAction) : List Int :=
  actions.filterMap fun
    | .blockCommitted block _ => some block.header.height
    | _ => none

@[simp] theorem committedHeights_append (a b : List SyncAction) :
    committedHeights (a ++ b) = committedHeights a ++ committedHeights b :=
  List.filterMap_append

namespace SyncNode

/-- The syncer after a call, and what the call did. -/
def record (call : SyncCall) (node : SyncNode) : SyncNode :=
  { node with syncer := call.syncer, log := node.log ++ call.actions }

/-- `Start`. -/
def start (node : SyncNode) : SyncNode :=
  if node.started then node
  else
    { node with
      syncer := { node.syncer with
        state := .idle
        startHeight := node.storeHeight
        currentHeight := node.storeHeight }
      started := true
      firstStart := some (node.firstStart.getD node.storeHeight) }

variable [Externals]

/-- `ReceiveBlock`, with the store behind it. -/
def receive (saved : Bool) (block : Option Block) (commit : Option Commit) (node : SyncNode) :
    SyncNode :=
  let call := node.syncer.receiveBlock saved block commit
  { node.record call with
    storeHeight :=
      if saved then (savedHeights call.actions).foldl max node.storeHeight
      else node.storeHeight }

/-- One call. -/
def step (node : SyncNode) : SyncOp → SyncNode
  | .start => node.start
  | .stop => { node with started := false }
  | .updateTargetHeight peers => node.record (node.syncer.updateTargetHeight peers)
  | .requestMissingBlocks peers request now rounds =>
    { node with syncer := node.syncer.requestMissingBlocks peers request now rounds }
  | .checkTimeouts now => { node with syncer := node.syncer.checkTimeouts now }
  | .receiveBlock saved block commit => node.receive saved block commit
  | .updateValidatorSet valSet => { node with syncer := node.syncer.updateValidatorSet valSet }

/-- A sequence of calls. -/
def run (node : SyncNode) (ops : List SyncOp) : SyncNode := ops.foldl step node

end SyncNode

/-! ## What a call can do -/

namespace BlockSyncer

/-- `UpdateTargetHeight` starts at most the callback that tells the end. -/
theorem updateTargetHeight_spec (peers : List SyncPeer) (bs : BlockSyncer) :
    (bs.updateTargetHeight peers).syncer.currentHeight = bs.currentHeight ∧
      (bs.updateTargetHeight peers).syncer.onBlockCommitted = bs.onBlockCommitted ∧
      savedHeights (bs.updateTargetHeight peers).actions = [] ∧
      committedHeights (bs.updateTargetHeight peers).actions = [] := by
  unfold updateTargetHeight
  dsimp only
  split_ifs <;> simp [savedHeights, committedHeights]

/-- The end of `ReceiveBlock`: the block is saved, and it counts if it is the next one. -/
theorem progress_spec (block : Block) (commit : Commit) (bs : BlockSyncer) :
    (bs.progress block commit).syncer.currentHeight =
        (if block.header.height = bs.nextHeight then block.header.height else bs.currentHeight) ∧
      (bs.progress block commit).syncer.onBlockCommitted = bs.onBlockCommitted ∧
      savedHeights (bs.progress block commit).actions = [block.header.height] ∧
      committedHeights (bs.progress block commit).actions =
        if block.header.height = bs.nextHeight ∧ bs.onBlockCommitted then [block.header.height]
        else [] := by
  unfold progress
  dsimp only
  have hnext : nextHeight { bs with
      pendingRequests := bs.pendingRequests.erase block.header.height } = bs.nextHeight := rfl
  rw [hnext]
  by_cases heq : block.header.height = bs.nextHeight
  · simp only [if_pos heq]
    cases bs.onBlockCommitted <;> cases bs.onCaughtUp <;> split_ifs <;>
      simp_all [savedHeights, committedHeights]
  · simp [savedHeights, committedHeights, heq]

variable [Externals]

/-- What `ReceiveBlock` can do: stop early, fail to save, or save and go on. -/
theorem receiveBlock_cases (saved : Bool) (block : Option Block) (commit : Option Commit)
    (bs : BlockSyncer) :
    (∃ e, bs.receiveBlock saved block commit = bs.rejected e) ∨
      ∃ b c, block = some b ∧ commit = some c ∧
        verifyCommit bs.chainID bs.valSet (blockHash b) b.header.height (some c) = .ok () ∧
        bs.receiveBlock saved block commit =
          if saved then bs.progress b c else ⟨bs, [.saveBlock b c], some .saveFailed⟩ := by
  match block, commit with
  | some b, some c =>
    unfold receiveBlock
    dsimp only
    split
    · exact .inl ⟨_, rfl⟩
    split
    · exact .inl ⟨_, rfl⟩
    split
    · exact .inl ⟨_, rfl⟩
    · rename_i hverify
      exact .inr ⟨b, c, rfl, rfl, hverify, rfl⟩
  | none, _ => exact .inl ⟨_, rfl⟩
  | some _, none => exact .inl ⟨_, rfl⟩

/-- A block that is the next one, with a commit that verifies, is not turned away. -/
theorem receiveBlock_next {block : Block} {commit : Commit} {bs : BlockSyncer} (saved : Bool)
    (hverify : verifyCommit bs.chainID bs.valSet (blockHash block) block.header.height
      (some commit) = .ok ()) (hnext : block.header.height = bs.nextHeight) :
    bs.receiveBlock saved (some block) (some commit) =
      if saved then bs.progress block commit
      else ⟨bs, [.saveBlock block commit], some .saveFailed⟩ := by
  have hheight := (verifyCommit_target hverify).1
  unfold receiveBlock
  dsimp only
  rw [if_neg (not_not.mpr hheight), if_neg (fun h => h.2 hnext), hverify]

end BlockSyncer

/-! ## Arrival order -/

section order

variable [Externals]

/-- The height of the block that a call delivers. -/
def SyncOp.delivered : SyncOp → Option Int
  | .receiveBlock _ (some block) _ => some block.header.height
  | _ => none

/-- A call as it happens while syncing: no `Start` or `Stop`, and every block that is
delivered comes with a commit that verifies and is accepted by the store. -/
def SyncOp.Regular (node : SyncNode) : SyncOp → Prop
  | .start => False
  | .stop => False
  | .receiveBlock saved block commit =>
    saved = true ∧ ∃ b c, block = some b ∧ commit = some c ∧
      verifyCommit node.syncer.chainID node.syncer.valSet (blockHash b) b.header.height (some c)
        = .ok ()
  | _ => True

/-- Every call of a run is regular when it is made. -/
def RegularRun : SyncNode → List SyncOp → Prop
  | _, [] => True
  | node, op :: ops => op.Regular node ∧ RegularRun (node.step op) ops

/-- The heights from `c + 1` to `n`. -/
def heightsUpTo (c n : Int) : List Int :=
  (List.range (n - c).toNat).map fun k : Nat => c + 1 + k

/-- The heights that a counter at `c` counts if it only takes its successor. -/
def taken : Int → List Int → List Int
  | _, [] => []
  | c, h :: rest => if h = wrapInt64 (c + 1) then h :: taken h rest else taken c rest

/-- One regular call: it counts the delivered block if this is the next one. -/
theorem SyncNode.step_regular {node : SyncNode} {op : SyncOp} (hop : op.Regular node)
    (hcallback : node.syncer.onBlockCommitted) :
    (node.step op).syncer.onBlockCommitted ∧
      (node.step op).syncer.currentHeight =
        (taken node.syncer.currentHeight op.delivered.toList).getLastD node.syncer.currentHeight ∧
      committedHeights (node.step op).log =
        committedHeights node.log ++ taken node.syncer.currentHeight op.delivered.toList := by
  cases op with
  | start => exact hop.elim
  | stop => exact hop.elim
  | updateTargetHeight peers =>
    obtain ⟨hheight, hset, -, hcommitted⟩ := node.syncer.updateTargetHeight_spec peers
    refine ⟨hset.trans hcallback, hheight, ?_⟩
    simp [step, record, hcommitted, SyncOp.delivered, taken]
  | requestMissingBlocks peers request now rounds =>
    obtain ⟨pending, hframe⟩ :=
      node.syncer.requestMissingBlocks_frame peers request now rounds
    show (node.syncer.requestMissingBlocks peers request now rounds).onBlockCommitted ∧
      (node.syncer.requestMissingBlocks peers request now rounds).currentHeight = _ ∧ _
    rw [hframe]
    exact ⟨hcallback, rfl, (List.append_nil _).symm⟩
  | checkTimeouts now => exact ⟨hcallback, rfl, (List.append_nil _).symm⟩
  | updateValidatorSet valSet => exact ⟨hcallback, rfl, (List.append_nil _).symm⟩
  | receiveBlock saved block commit =>
    obtain ⟨rfl, b, c, rfl, rfl, hverify⟩ := hop
    have hdelivered : taken node.syncer.currentHeight
        (SyncOp.receiveBlock true (some b) (some c)).delivered.toList =
          if b.header.height = node.syncer.nextHeight then [b.header.height] else [] := rfl
    have hstep : (node.step (.receiveBlock true (some b) (some c))).log =
        node.log ++ (node.syncer.receiveBlock true (some b) (some c)).actions := rfl
    rw [hdelivered, hstep, committedHeights_append]
    show (node.syncer.receiveBlock true (some b) (some c)).syncer.onBlockCommitted ∧
      (node.syncer.receiveBlock true (some b) (some c)).syncer.currentHeight = _ ∧ _
    obtain ⟨hheight, hset, -, hcommitted⟩ := node.syncer.progress_spec b c
    by_cases hnext : b.header.height = node.syncer.nextHeight
    · rw [BlockSyncer.receiveBlock_next true hverify hnext, if_pos rfl, hheight, hset,
        hcommitted, if_pos hnext, if_pos hnext, if_pos ⟨hnext, hcallback⟩]
      exact ⟨hcallback, rfl, rfl⟩
    · rcases node.syncer.receiveBlock_cases true (some b) (some c) with
        ⟨e, hrejected⟩ | ⟨b', c', hb, hc, -, hcall⟩
      · rw [hrejected, if_neg hnext]
        exact ⟨hcallback, rfl, rfl⟩
      · obtain rfl := Option.some.inj hb
        obtain rfl := Option.some.inj hc
        rw [hcall, if_pos rfl, hheight, hset, hcommitted, if_neg hnext, if_neg hnext,
          if_neg fun h => hnext h.1]
        exact ⟨hcallback, rfl, rfl⟩

omit [Externals] in
theorem taken_append (c : Int) (a b : List Int) :
    taken c (a ++ b) = taken c a ++ taken ((taken c a).getLastD c) b := by
  induction a generalizing c with
  | nil => rfl
  | cons h rest ih =>
    rw [List.cons_append, taken, taken]
    split
    · rw [ih, List.cons_append]
      congr 2
      cases taken h rest <;> rfl
    · exact ih c

omit [Externals] in
theorem getLastD_append (a b : List Int) (c : Int) :
    (a ++ b).getLastD c = b.getLastD (a.getLastD c) := by
  rw [List.getLastD_eq_getLast?, List.getLastD_eq_getLast?, List.getLastD_eq_getLast?,
    List.getLast?_append]
  cases b.getLast? <;> rfl

/-- A regular run counts the blocks that arrive in their turn. -/
theorem SyncNode.run_regular {node : SyncNode} {ops : List SyncOp} (hops : RegularRun node ops)
    (hcallback : node.syncer.onBlockCommitted) :
    (node.run ops).syncer.currentHeight =
        (taken node.syncer.currentHeight (ops.filterMap SyncOp.delivered)).getLastD
          node.syncer.currentHeight ∧
      committedHeights (node.run ops).log = committedHeights node.log ++
        taken node.syncer.currentHeight (ops.filterMap SyncOp.delivered) := by
  induction ops generalizing node with
  | nil => exact ⟨rfl, (List.append_nil _).symm⟩
  | cons op ops ih =>
    obtain ⟨hcallback', hheight, hcommitted⟩ := node.step_regular hops.1 hcallback
    obtain ⟨hrun, hlog⟩ := ih hops.2 hcallback'
    have hcons : (op :: ops).filterMap SyncOp.delivered =
        op.delivered.toList ++ ops.filterMap SyncOp.delivered := by
      rw [List.filterMap_cons]
      cases op.delivered <;> rfl
    rw [hcons, taken_append, ← hheight]
    refine ⟨?_, ?_⟩
    · show ((node.step op).run ops).syncer.currentHeight = _
      rw [hrun, getLastD_append, ← hheight]
    · show committedHeights ((node.step op).run ops).log = _
      rw [hlog, hcommitted, List.append_assoc]

section

omit [Externals]

theorem heightsUpTo_cons (c : Int) (k : Nat) :
    heightsUpTo c (c + (k + 1 : Nat)) = (c + 1) :: heightsUpTo (c + 1) (c + 1 + k) := by
  rw [heightsUpTo, heightsUpTo, add_sub_cancel_left, add_sub_cancel_left, Int.toNat_natCast,
    Int.toNat_natCast, List.range_succ_eq_map, List.map_cons, List.map_map]
  congr 1
  · simp
  · refine List.map_congr_left fun j _ => ?_
    simp only [Function.comp_apply, Nat.succ_eq_add_one]
    push_cast
    omega

theorem length_heightsUpTo (c n : Int) : (heightsUpTo c n).length = (n - c).toNat := by
  simp [heightsUpTo]

theorem getLastD_heightsUpTo (c : Int) (k : Nat) : (heightsUpTo c (c + k)).getLastD c = c + k := by
  induction k generalizing c with
  | zero => simp [heightsUpTo]
  | succ k ih =>
    rw [heightsUpTo_cons, List.getLastD_cons, ih]
    push_cast
    omega

theorem wrapInt64_le {x : Int} (hx : minInt64 ≤ x) : wrapInt64 x ≤ x := by
  simp only [minInt64] at hx
  simp only [wrapInt64, Int.bmod]
  omega

theorem taken_sublist (c : Int) (hs : List Int) : (taken c hs).Sublist hs := by
  induction hs generalizing c with
  | nil => exact .slnil
  | cons h rest ih =>
    rw [taken]
    split
    · exact (ih h).cons_cons h
    · exact (ih c).cons h

/-- The counted heights are consecutive. -/
theorem taken_consecutive {hs : List Int} (hhs : ∀ h ∈ hs, minInt64 < h ∧ h ≤ maxInt64) :
    ∀ {c : Int}, minInt64 ≤ c → c ≤ maxInt64 →
      taken c hs = heightsUpTo c (c + (taken c hs).length) := by
  induction hs with
  | nil =>
    intro c _ _
    simp [taken, heightsUpTo]
  | cons h rest ih =>
    intro c hlow hhigh
    obtain ⟨hh, hrest⟩ := List.forall_mem_cons.mp hhs
    rw [taken]
    split
    · rename_i hnext
      -- The greatest height has no successor: the sum would wrap to the least one.
      have hlt : c < maxInt64 := by
        refine lt_of_le_of_ne hhigh fun heq => ?_
        rw [heq] at hnext
        have : wrapInt64 (maxInt64 + 1) = minInt64 := by decide
        omega
      obtain rfl : h = c + 1 := hnext.trans (wrapInt64_eq_self (by omega) hlt)
      rw [List.length_cons, heightsUpTo_cons, ← ih hrest (by omega) hh.2]
    · exact ih hrest hlow hhigh

/-- In ascending order every height is counted. -/
theorem taken_heightsUpTo {c : Int} {k : Nat} (hlow : minInt64 ≤ c)
    (hhigh : c + k ≤ maxInt64) : taken c (heightsUpTo c (c + k)) = heightsUpTo c (c + k) := by
  induction k generalizing c with
  | zero => simp [heightsUpTo, taken]
  | succ k ih =>
    push_cast at hhigh
    rw [heightsUpTo_cons, taken, if_pos (wrapInt64_eq_self (by omega) (by omega)).symm,
      ih (by omega) (by omega)]

/-- Heights that come once each, in any order, are all counted only in ascending order. -/
theorem getLastD_taken_iff {c n : Int} {hs : List Int} (hlow : minInt64 ≤ c) (hlt : c < n)
    (hn : n ≤ maxInt64) (hperm : hs.Perm (heightsUpTo c n)) :
    (taken c hs).getLastD c = n ↔ hs = heightsUpTo c n := by
  obtain ⟨k, rfl⟩ : ∃ k : Nat, n = c + k := ⟨(n - c).toNat, by omega⟩
  have hrange : ∀ h ∈ hs, minInt64 < h ∧ h ≤ maxInt64 := by
    intro h hh
    obtain ⟨j, hj, rfl⟩ := List.mem_map.mp (hperm.mem_iff.mp hh)
    have := List.mem_range.mp hj
    omega
  constructor
  · intro hlast
    have htaken := taken_consecutive hrange hlow (by omega)
    rw [htaken, getLastD_heightsUpTo] at hlast
    have hlen : hs.length = (taken c hs).length := by
      rw [hperm.length_eq, length_heightsUpTo]
      omega
    rw [← (taken_sublist c hs).eq_of_length hlen.symm, htaken, hlast]
  · rintro rfl
    rw [taken_heightsUpTo hlow hn, getLastD_heightsUpTo]

end

/-- **Arrival order matters.** A started syncer gets the blocks of the heights up to `n`,
each once, with a commit that verifies, while requests, timeouts and peer updates happen in
any way. It ends at `n` with one callback for each height exactly if the blocks arrived in
ascending order. -/
theorem sync_order_iff {node : SyncNode} (hcallback : node.syncer.onBlockCommitted) {n : Int}
    (hlow : minInt64 ≤ node.syncer.currentHeight) (hlt : node.syncer.currentHeight < n)
    (hn : n ≤ maxInt64) {ops : List SyncOp} (hops : RegularRun node ops)
    (hdelivered : (ops.filterMap SyncOp.delivered).Perm
      (heightsUpTo node.syncer.currentHeight n)) :
    ((node.run ops).syncer.currentHeight = n ∧
      (committedHeights (node.run ops).log).Perm
        (committedHeights node.log ++ heightsUpTo node.syncer.currentHeight n)) ↔
      ops.filterMap SyncOp.delivered = heightsUpTo node.syncer.currentHeight n := by
  obtain ⟨hheight, hcommitted⟩ := node.run_regular hops hcallback
  have hiff := getLastD_taken_iff hlow hlt hn hdelivered
  rw [hheight, hcommitted, hiff]
  refine ⟨And.left, fun hascending => ⟨hascending, ?_⟩⟩
  obtain ⟨k, rfl⟩ : ∃ k : Nat, n = node.syncer.currentHeight + k :=
    ⟨(n - node.syncer.currentHeight).toNat, by omega⟩
  rw [hascending, taken_heightsUpTo hlow hn]

end order

namespace Scenario

attribute [local instance] transparent

/-- The commit of a block by validator 1 alone. -/
def soleCommit (b : Block) : Commit where
  height := b.header.height
  round := 0
  blockHash := blockHash b
  signatures :=
    [{ validatorIndex := 0
       signature := (vote 1 0 .precommit b.header.height 0 (some b)).signature
       timestamp := 0
       blockHash := some (blockHash b) }]

/-- A peer has sent the block of a height. -/
def deliver (height : Int) : SyncOp :=
  .receiveBlock true (some (block height 1)) (some (soleCommit (block height 1)))

/-- Up to five blocks are requested from a peer at height 2. -/
def request : SyncOp := .requestMissingBlocks [⟨[9], 2⟩] (fun _ _ => true) 0 5

/-- A syncer at height 0 that was not started yet, for the chain of validator 1. -/
def idleNode : SyncNode where
  syncer :=
    { chainID := [], state := .idle, valSet := some (validatorSet [(1, 1)] isOk_sole).1,
      startHeight := 0, targetHeight := 0, currentHeight := 0, pendingRequests := ∅,
      onBlockCommitted := true, onCaughtUp := true }
  started := false
  storeHeight := 0
  firstStart := none
  log := []

/-- The same syncer, started, when it knows of the peer at height 2. -/
def syncingNode : SyncNode := idleNode.run [.start, .updateTargetHeight [⟨[9], 2⟩]]

/-- Blocks 1 and 2 are requested; block 2 arrives first. Block 2 is saved and forgotten,
and the syncer stays at height 1. -/
theorem swapped_blocks_lost :
    (syncingNode.started ∧ syncingNode.syncer.state = .syncing ∧
      syncingNode.syncer.onBlockCommitted ∧ syncingNode.syncer.currentHeight = 0) ∧
    (syncingNode.step request).syncer.pendingRequests.keys = [2, 1] ∧
    RegularRun syncingNode [request, deliver 2, deliver 1] ∧
    ([request, deliver 2, deliver 1].filterMap SyncOp.delivered).Perm (heightsUpTo 0 2) ∧
    (syncingNode.run [request, deliver 2, deliver 1]).syncer.currentHeight = 1 ∧
    committedHeights (syncingNode.run [request, deliver 2, deliver 1]).log = [1] := by
  refine ⟨by decide +kernel, by decide +kernel, ?_, ?_, by decide +kernel, by decide +kernel⟩
  · exact ⟨trivial, ⟨rfl, _, _, rfl, rfl, by decide +kernel⟩,
      ⟨rfl, _, _, rfl, rfl, by decide +kernel⟩, trivial⟩
  · exact List.Perm.swap 1 2 []

/-- In ascending order both blocks count. -/
theorem ascending_blocks_count :
    (syncingNode.run [request, deliver 1, deliver 2]).syncer.currentHeight = 2 ∧
    (committedHeights (syncingNode.run [request, deliver 1, deliver 2]).log).Perm
      (committedHeights syncingNode.log ++ heightsUpTo syncingNode.syncer.currentHeight 2) := by
  have hregular : RegularRun syncingNode [request, deliver 1, deliver 2] :=
    ⟨trivial, ⟨rfl, _, _, rfl, rfl, by decide +kernel⟩,
      ⟨rfl, _, _, rfl, rfl, by decide +kernel⟩, trivial⟩
  have hperm : ([request, deliver 1, deliver 2].filterMap SyncOp.delivered).Perm
      (heightsUpTo syncingNode.syncer.currentHeight 2) := .refl _
  exact (sync_order_iff (by decide +kernel) (by decide +kernel) (by decide +kernel) (by decide)
    hregular hperm).mpr rfl

end Scenario

/-! ## Restarts -/

section restart

variable [Externals] {node : SyncNode} {ops : List SyncOp} {h : Int}

/-- A block of height `h` was passed to the store during the run, with a commit that
`VerifyCommit` accepted. -/
def SavedWithin (node : SyncNode) (ops : List SyncOp) (h : Int) : Prop :=
  ∃ before saved b c, before ++ [.receiveBlock saved (some b) (some c)] <+: ops ∧
    b.header.height = h ∧
    verifyCommit (node.run before).syncer.chainID (node.run before).syncer.valSet (blockHash b) h
      (some c) = .ok () ∧
    .saveBlock b c ∈ ((node.run before).syncer.receiveBlock saved (some b) (some c)).actions

/-- Every height above the first start height, up to `top`, was saved during the run. -/
def NoGap (node : SyncNode) (ops : List SyncOp) (top : Int) : Prop :=
  ∀ first, (node.run ops).firstStart = some first → ∀ h, first < h → h ≤ top →
    SavedWithin node ops h

theorem SavedWithin.mono {ops' : List SyncOp} (hinit : ops <+: ops') :
    SavedWithin node ops h → SavedWithin node ops' h := by
  rintro ⟨before, saved, b, c, hbefore, hrest⟩
  exact ⟨before, saved, b, c, hbefore.trans hinit, hrest⟩

theorem SavedWithin.of_start :
    SavedWithin node (ops ++ [.start]) h → SavedWithin node ops h := by
  rintro ⟨before, saved, b, c, hbefore, hrest⟩
  obtain heq | hbefore := List.prefix_concat_iff.mp hbefore
  · simp at heq
  · exact ⟨before, saved, b, c, hbefore, hrest⟩

namespace SyncNode

theorem run_concat (node : SyncNode) (ops : List SyncOp) (op : SyncOp) :
    node.run (ops ++ [op]) = (node.run ops).step op :=
  List.foldl_concat ..

/-- What a call can do to the heights: start a stopped syncer at the height of the store,
leave them, or count the next height, whose block goes to the store. -/
theorem step_cases (node : SyncNode) (op : SyncOp) :
    (op = .start ∧ node.started = false ∧
      (node.step op).syncer.currentHeight = node.storeHeight ∧
      (node.step op).firstStart = some (node.firstStart.getD node.storeHeight)) ∨
    ((node.step op).syncer.currentHeight = node.syncer.currentHeight ∧
      (node.step op).firstStart = node.firstStart) ∨
    ((node.step op).syncer.currentHeight = node.syncer.nextHeight ∧
      (node.step op).firstStart = node.firstStart ∧
      ∃ saved b c, op = .receiveBlock saved (some b) (some c) ∧
        b.header.height = node.syncer.nextHeight ∧
        verifyCommit node.syncer.chainID node.syncer.valSet (blockHash b) b.header.height
          (some c) = .ok () ∧
        .saveBlock b c ∈ (node.syncer.receiveBlock saved (some b) (some c)).actions) := by
  cases op with
  | start =>
    rw [step, start]
    split
    · exact .inr (.inl ⟨rfl, rfl⟩)
    · rename_i hstopped
      exact .inl ⟨rfl, Bool.eq_false_iff.mpr hstopped, rfl, rfl⟩
  | stop => exact .inr (.inl ⟨rfl, rfl⟩)
  | updateTargetHeight peers =>
    exact .inr (.inl ⟨(BlockSyncer.updateTargetHeight_spec peers node.syncer).1, rfl⟩)
  | requestMissingBlocks peers request now rounds =>
    obtain ⟨pending, hframe⟩ :=
      node.syncer.requestMissingBlocks_frame peers request now rounds
    refine .inr (.inl ⟨?_, rfl⟩)
    show (node.syncer.requestMissingBlocks peers request now rounds).currentHeight = _
    rw [hframe]
  | checkTimeouts now => exact .inr (.inl ⟨rfl, rfl⟩)
  | updateValidatorSet valSet => exact .inr (.inl ⟨rfl, rfl⟩)
  | receiveBlock saved block commit =>
    have hcurrent : (node.step (.receiveBlock saved block commit)).syncer.currentHeight =
        (node.syncer.receiveBlock saved block commit).syncer.currentHeight := rfl
    obtain ⟨e, hreject⟩ | ⟨b, c, rfl, rfl, hverify, hcall⟩ :=
      BlockSyncer.receiveBlock_cases saved block commit node.syncer
    · rw [hcurrent, hreject]
      exact .inr (.inl ⟨rfl, rfl⟩)
    · cases saved
      · rw [hcurrent, hcall]
        exact .inr (.inl ⟨rfl, rfl⟩)
      · rw [if_pos rfl] at hcall
        have hprogress := (BlockSyncer.progress_spec b c node.syncer).1
        rw [hcurrent, hcall, hprogress]
        by_cases hnext : b.header.height = node.syncer.nextHeight
        · rw [if_pos hnext, hnext]
          refine .inr (.inr ⟨rfl, rfl, true, b, c, rfl, hnext, hnext ▸ hverify, ?_⟩)
          rw [hcall]
          exact BlockSyncer.saveBlock_mem_progress b c node.syncer
        · rw [if_neg hnext]
          exact .inr (.inl ⟨rfl, rfl⟩)

theorem storeHeight_le_step (node : SyncNode) (op : SyncOp) :
    node.storeHeight ≤ (node.step op).storeHeight := by
  have hmax : ∀ (hs : List Int) (x : Int), x ≤ hs.foldl max x := by
    intro hs
    induction hs with
    | nil => exact fun x => le_rfl
    | cons h hs ih => exact fun x => (le_max_left x h).trans (ih (max x h))
  cases op with
  | start =>
    rw [step, start]
    split <;> exact le_rfl
  | receiveBlock saved block commit =>
    cases saved
    · exact le_rfl
    · exact hmax _ _
  | stop | updateTargetHeight | requestMissingBlocks | checkTimeouts | updateValidatorSet =>
    exact le_rfl

theorem log_prefix_step (node : SyncNode) (op : SyncOp) : node.log <+: (node.step op).log := by
  cases op with
  | start =>
    rw [step, start]
    split <;> exact List.prefix_rfl
  | updateTargetHeight | receiveBlock => exact List.prefix_append ..
  | stop | requestMissingBlocks | checkTimeouts | updateValidatorSet => exact List.prefix_rfl

theorem log_prefix_run (node : SyncNode) (ops : List SyncOp) : node.log <+: (node.run ops).log := by
  induction ops generalizing node with
  | nil => exact List.prefix_rfl
  | cons op ops ih => exact (node.log_prefix_step op).trans (ih (node.step op))

/-- The heights stay above the least `int64`. -/
theorem minInt64_le_run {node : SyncNode} (hstore : minInt64 ≤ node.storeHeight)
    (hcurrent : minInt64 ≤ node.syncer.currentHeight) (ops : List SyncOp) :
    minInt64 ≤ (node.run ops).storeHeight ∧ minInt64 ≤ (node.run ops).syncer.currentHeight := by
  induction ops using List.reverseRecOn with
  | nil => exact ⟨hstore, hcurrent⟩
  | append_singleton ops op ih =>
    rw [run_concat]
    refine ⟨ih.1.trans ((node.run ops).storeHeight_le_step op), ?_⟩
    obtain ⟨-, -, h, -⟩ | ⟨h, -⟩ | ⟨h, -⟩ := (node.run ops).step_cases op
    · exact h ▸ ih.1
    · exact h ▸ ih.2
    · exact h ▸ minInt64_le_wrapInt64 _

end SyncNode

/-- What was saved during a run is in the log. -/
theorem SavedWithin.mem_savedHeights :
    SavedWithin node ops h → h ∈ savedHeights (node.run ops).log := by
  rintro ⟨before, saved, b, c, ⟨rest, rfl⟩, hheight, -, hsave⟩
  refine List.mem_filterMap.mpr ⟨.saveBlock b c, ?_, congrArg some hheight⟩
  rw [SyncNode.run, List.foldl_append]
  refine (SyncNode.log_prefix_run _ rest).subset ?_
  rw [List.foldl_concat]
  exact List.mem_append_right _ hsave

/-- A call that does not restart the syncer leaves no gap below its height. -/
theorem NoGap.concat {node : SyncNode} {ops : List SyncOp} {op : SyncOp}
    (hlow : minInt64 ≤ (node.run ops).syncer.currentHeight)
    (hgap : NoGap node ops (node.run ops).syncer.currentHeight)
    (hrestart : op = .start → (node.run ops).started = false →
      NoGap node ops (node.run ops).storeHeight) :
    NoGap node (ops ++ [op]) (node.run (ops ++ [op])).syncer.currentHeight := by
  have hinit : ops <+: ops ++ [op] := List.prefix_append ..
  rw [NoGap, SyncNode.run_concat]
  intro first hfirst h hlt hle
  obtain ⟨hop, hstopped, hcurrent, hstart⟩ | ⟨hcurrent, hstart⟩ |
    ⟨hcurrent, hstart, saved, b, c, hop, hnext, hverify, hsave⟩ := (node.run ops).step_cases op
  · rw [hstart, Option.some.injEq] at hfirst
    rw [hcurrent] at hle
    cases hbefore : (node.run ops).firstStart with
    | none =>
      -- The first start: nothing lies between it and the height of the store.
      rw [hbefore, Option.getD_none] at hfirst
      omega
    | some first' =>
      rw [hbefore, Option.getD_some] at hfirst
      exact (hrestart hop hstopped first (hfirst ▸ hbefore) h hlt hle).mono hinit
  · exact (hgap first (hstart ▸ hfirst) h hlt (hcurrent ▸ hle)).mono hinit
  · rw [hstart] at hfirst
    rw [hcurrent] at hle
    by_cases hold : h ≤ (node.run ops).syncer.currentHeight
    · exact (hgap first hfirst h hlt hold).mono hinit
    · have hwrap : (node.run ops).syncer.nextHeight ≤ (node.run ops).syncer.currentHeight + 1 :=
        wrapInt64_le (by omega)
      obtain rfl : b.header.height = h := by omega
      subst hop
      exact ⟨ops, saved, b, c, List.prefix_rfl, rfl, hverify, hsave⟩

/-- **Restarts skip gaps.** In a run from a syncer that was not started before, every height
above the first start height that the syncer passed was saved with a verified commit, at
every moment, exactly if no restart finds a height that was never saved below the height of
the store. -/
theorem no_skip_iff {node : SyncNode} (hnew : node.firstStart = none)
    (hstore : minInt64 ≤ node.storeHeight) (hcurrent : minInt64 ≤ node.syncer.currentHeight)
    (ops : List SyncOp) :
    (∀ before, before <+: ops → NoGap node before (node.run before).syncer.currentHeight) ↔
      ∀ before, before ++ [.start] <+: ops → (node.run before).started = false →
        NoGap node before (node.run before).storeHeight := by
  constructor
  · intro hgaps before hbefore hstopped first hfirst h hlt hle
    have hstart : node.run (before ++ [.start]) = (node.run before).start :=
      node.run_concat before .start
    refine (hgaps _ hbefore first ?_ h hlt ?_).of_start
    · rw [hstart, SyncNode.start, if_neg (Bool.eq_false_iff.mp hstopped)]
      simp [hfirst]
    · rw [hstart, SyncNode.start, if_neg (Bool.eq_false_iff.mp hstopped)]
      exact hle
  · intro hrestarts before
    induction before using List.reverseRecOn with
    | nil =>
      intro _ first hfirst
      cases hnew.symm.trans hfirst
    | append_singleton before op ih =>
      intro hbefore
      have hinit : before <+: ops := (List.prefix_append before [op]).trans hbefore
      refine (ih hinit).concat (SyncNode.minInt64_le_run hstore hcurrent before).2 ?_
      rintro rfl
      exact hrestarts before hbefore

end restart

namespace Scenario

attribute [local instance] transparent

/-- Block 2 arrives before block 1, and the syncer is restarted: it goes on from height 2,
and block 1 was never saved. -/
theorem restart_skips_block :
    let ops := [.start, .updateTargetHeight [⟨[9], 2⟩], request, deliver 2, .stop, .start]
    (idleNode.run ops).firstStart = some 0 ∧ (idleNode.run ops).syncer.currentHeight = 2 ∧
      savedHeights (idleNode.run ops).log = [2] ∧
      ¬ NoGap idleNode ops (idleNode.run ops).syncer.currentHeight := by
  intro ops
  have hsaved : savedHeights (idleNode.run ops).log = [2] := by decide +kernel
  refine ⟨by decide +kernel, by decide +kernel, hsaved, fun hgap => ?_⟩
  have hone : SavedWithin idleNode ops 1 :=
    hgap 0 (by decide +kernel) 1 (by decide) (by decide +kernel)
  have hmem := hone.mem_savedHeights
  rw [hsaved] at hmem
  exact absurd hmem (by decide)

/-- With block 1 in the store, a restart leaves no gap. -/
theorem restart_without_gap :
    let ops := [.start, .updateTargetHeight [⟨[9], 2⟩], deliver 1, .stop, .start]
    ∀ before, before <+: ops →
      NoGap idleNode before (idleNode.run before).syncer.currentHeight := by
  intro ops
  refine (no_skip_iff rfl (by decide) (by decide +kernel) ops).mpr ?_
  rintro before ⟨rest, hops⟩ - first hfirst h hlt hle
  -- A start is the first call or the fifth.
  rcases before with _ | ⟨_, _ | ⟨_, _ | ⟨_, _ | ⟨_, before⟩⟩⟩⟩
  · cases hfirst
  · simp [ops] at hops
  · simp [ops, deliver] at hops
  · simp [ops] at hops
  · simp only [ops, List.cons_append, List.cons.injEq] at hops
    obtain ⟨rfl, rfl, rfl, rfl, hlast⟩ := hops
    obtain rfl : before = [] := by
      have hlen := congrArg List.length hlast
      simp only [List.length_append, List.length_singleton] at hlen
      exact List.length_eq_zero_iff.mp (by omega)
    have hzero : first = 0 := Option.some.inj (hfirst.symm.trans (by decide +kernel))
    have hone : h ≤ 1 := hle.trans (by decide +kernel)
    obtain rfl : h = 1 := by omega
    exact ⟨[.start, .updateTargetHeight [⟨[9], 2⟩]], true, block 1 1, soleCommit (block 1 1),
      ⟨[.stop], rfl⟩, rfl, by decide +kernel, by decide +kernel⟩

end Scenario

end Leaderberry
