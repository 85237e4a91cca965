import Mathlib.Data.Finset.Card
import Mathlib.Data.Finset.Image
import Mathlib.Data.Finset.Range
import Mathlib.Logic.Function.Iterate
import Leaderberry.Engine.BlockSync

/-!
# Whether the request loop ends

`requestMissingBlocks` counts a height up to the target and leaves early once five requests
are pending. The target is the greatest height a peer reports. If that is the greatest
`int64`, the height never exceeds it: `height++` wraps around, and the loop goes through all
heights again. It then ends only by the requests that are taken (`returns_iff`).

The loop is followed round by round here. Between two rounds the peers may be listed in
another order and the provider may answer differently, so each round has its own input. With
the same input in all rounds the rounds are those of `requestLoop` (`requestLoop_of_done`).
-/

namespace Leaderberry.BlockSyncer

variable {peers : List SyncPeer} {request : GoString → Int → Bool} {now : Int}

/-- What a round of the loop meets: the peers as `AllPeers` lists them, whether
`RequestBlock` returns nil, and the time. -/
structure RoundInput where
  peers : List SyncPeer
  request : GoString → Int → Bool
  now : Int

/-- One round, on the loop's height and the syncer. -/
def loopRound (input : RoundInput) (s : Int × BlockSyncer) : Int × BlockSyncer :=
  (wrapInt64 (s.1 + 1), s.2.requestHeight input.peers input.request input.now s.1)

/-- After `k` rounds. -/
def loopRounds (inputs : Nat → RoundInput) (s : Int × BlockSyncer) : Nat → Int × BlockSyncer
  | 0 => s
  | k + 1 => loopRound (inputs k) (loopRounds inputs s k)

/-- The loop ends here. -/
def LoopDone (s : Int × BlockSyncer) : Prop :=
  s.2.targetHeight < s.1 ∨ maxPendingRequests ≤ s.2.pendingRequests.entries.length

/-- `requestMissingBlocks` returns. It does so at once unless the syncer is syncing. -/
def Returns (inputs : Nat → RoundInput) (bs : BlockSyncer) : Prop :=
  bs.state = .syncing → ∃ k, LoopDone (loopRounds inputs (bs.nextHeight, bs) k)

/-! ## The rounds of `requestLoop` -/

theorem requestLoop_done {s : Int × BlockSyncer} (hdone : LoopDone s) (rounds : Nat) :
    requestLoop peers request now rounds s.1 s.2 = s.2 := by
  cases rounds with
  | zero => rfl
  | succ rounds =>
    rw [requestLoop]
    exact if_pos hdone

theorem requestLoop_not_done {s : Int × BlockSyncer} (hnot : ¬ LoopDone s) (rounds : Nat) :
    requestLoop peers request now (rounds + 1) s.1 s.2 =
      requestLoop peers request now rounds (loopRound ⟨peers, request, now⟩ s).1
        (loopRound ⟨peers, request, now⟩ s).2 := by
  rw [requestLoop]
  exact if_neg hnot

/-- From the round on in which the loop ends, more rounds change nothing. -/
theorem requestLoop_of_done (k : Nat) : ∀ {s : Int × BlockSyncer} {rounds : Nat},
      LoopDone ((loopRound ⟨peers, request, now⟩)^[k] s) → k ≤ rounds →
      requestLoop peers request now rounds s.1 s.2 = requestLoop peers request now k s.1 s.2 := by
  induction k with
  | zero =>
    intro s rounds hdone _
    have hnow : LoopDone s := hdone
    rw [requestLoop_done hnow, requestLoop_done hnow]
  | succ k ih =>
    intro s rounds hdone hle
    by_cases hnow : LoopDone s
    · rw [requestLoop_done hnow, requestLoop_done hnow]
    · obtain ⟨rounds, rfl⟩ : ∃ n, rounds = n + 1 := ⟨rounds - 1, by omega⟩
      rw [requestLoop_not_done hnow, requestLoop_not_done hnow]
      exact ih (s := loopRound ⟨peers, request, now⟩ s) hdone (by omega)

/-- If the loop ends, `requestMissingBlocks` has its result after enough rounds. -/
theorem requestMissingBlocks_of_returns {bs : BlockSyncer}
    (h : Returns (fun _ => ⟨peers, request, now⟩) bs) :
    ∃ k, ∀ rounds, k ≤ rounds →
      bs.requestMissingBlocks peers request now rounds =
        bs.requestMissingBlocks peers request now k := by
  by_cases hstate : bs.state = .syncing
  · obtain ⟨k, hdone⟩ := h hstate
    have hiterate : ∀ j, loopRounds (fun _ => ⟨peers, request, now⟩) (bs.nextHeight, bs) j =
        (loopRound ⟨peers, request, now⟩)^[j] (bs.nextHeight, bs) := by
      intro j
      induction j with
      | zero => rfl
      | succ j ih => rw [Function.iterate_succ_apply', loopRounds, ih]
    rw [hiterate] at hdone
    refine ⟨k, fun rounds hle => ?_⟩
    unfold requestMissingBlocks
    rw [requestLoop_of_done k (s := (bs.nextHeight, bs)) hdone hle]
  · refine ⟨0, fun rounds _ => ?_⟩
    unfold requestMissingBlocks
    rw [if_pos hstate, if_pos hstate]

/-! ## Heights -/

theorem wrapInt64_le_maxInt64 (x : Int) : wrapInt64 x ≤ maxInt64 := by
  have := Int.bmod_lt (x := x) (m := 2 ^ 64) (by norm_num)
  simp only [wrapInt64, maxInt64]
  omega

/-- The height of the `k`-th round. -/
def loopHeight (bs : BlockSyncer) (k : Nat) : Int := wrapInt64 (bs.currentHeight + 1 + k)

theorem loopHeight_succ (bs : BlockSyncer) (k : Nat) :
    bs.loopHeight (k + 1) = wrapInt64 (bs.loopHeight k + 1) := by
  unfold loopHeight wrapInt64
  rw [Int.bmod_add_bmod]
  push_cast
  rw [← add_assoc]

theorem fst_loopRounds (inputs : Nat → RoundInput) (bs : BlockSyncer) (k : Nat) :
    (loopRounds inputs (bs.nextHeight, bs) k).1 = bs.loopHeight k := by
  induction k with
  | zero =>
    show wrapInt64 (bs.currentHeight + 1) = wrapInt64 (bs.currentHeight + 1 + 0)
    rw [add_zero]
  | succ k ih =>
    show wrapInt64 ((loopRounds inputs (bs.nextHeight, bs) k).1 + 1) = _
    rw [ih, loopHeight_succ]

/-- The height gets to the greatest `int64`. -/
theorem exists_loopHeight_eq (bs : BlockSyncer) : ∃ k, bs.loopHeight k = maxInt64 := by
  have hle := wrapInt64_le_maxInt64 (bs.currentHeight + 1)
  refine ⟨(maxInt64 - bs.nextHeight).toNat, ?_⟩
  have hcast : ((maxInt64 - bs.nextHeight).toNat : Int) = maxInt64 - bs.nextHeight :=
    Int.toNat_of_nonneg (sub_nonneg.mpr hle)
  unfold loopHeight
  rw [hcast]
  calc wrapInt64 (bs.currentHeight + 1 + (maxInt64 - bs.nextHeight))
      = wrapInt64 (wrapInt64 (bs.currentHeight + 1) + (maxInt64 - bs.nextHeight)) := by
        unfold wrapInt64
        rw [Int.bmod_add_bmod]
    _ = wrapInt64 maxInt64 := by
        congr 1
        unfold nextHeight
        omega
    _ = maxInt64 := by decide

/-! ## Pending requests -/

/-- In the round a peer is found and the provider takes the request. -/
def taken (inputs : Nat → RoundInput) (bs : BlockSyncer) (k : Nat) : Bool :=
  let peerID := findPeerForHeight (inputs k).peers (bs.loopHeight k)
  decide (peerID ≠ []) && (inputs k).request peerID (bs.loopHeight k)

/-- The heights for which that is so in the first `n` rounds. -/
def takenHeights (inputs : Nat → RoundInput) (bs : BlockSyncer) (n : Nat) : Finset Int :=
  ((Finset.range n).filter fun k => bs.taken inputs k = true).image bs.loopHeight

/-- The heights that are pending. -/
def pendingHeights (bs : BlockSyncer) : Finset Int := bs.pendingRequests.keys.toFinset

theorem card_pendingHeights (bs : BlockSyncer) :
    bs.pendingHeights.card = bs.pendingRequests.entries.length := by
  unfold pendingHeights
  rw [List.toFinset_card_of_nodup bs.pendingRequests.keys_nodup]
  exact List.length_map _

/-- A round makes its height pending if a request is taken. -/
theorem pendingHeights_requestHeight (peers : List SyncPeer) (request : GoString → Int → Bool)
    (now height : Int) (bs : BlockSyncer) :
    (bs.requestHeight peers request now height).pendingHeights =
      if findPeerForHeight peers height ≠ [] ∧ request (findPeerForHeight peers height) height then
        insert height bs.pendingHeights
      else bs.pendingHeights := by
  unfold requestHeight
  by_cases hpending : (bs.pendingRequests.lookup height).isSome = true
  · -- the height is there already
    have hmem : height ∈ bs.pendingHeights :=
      List.mem_toFinset.mpr (AList.mem_keys.mp (AList.lookup_isSome.mp hpending))
    rw [if_pos hpending, Finset.insert_eq_self.mpr hmem, ite_self]
  · rw [if_neg hpending]
    dsimp only
    by_cases hpeer : findPeerForHeight peers height = []
    · rw [if_pos hpeer, if_neg fun h => h.1 hpeer]
    · rw [if_neg hpeer]
      by_cases hrequest : request (findPeerForHeight peers height) height = true
      · rw [if_pos hrequest, if_pos ⟨hpeer, hrequest⟩]
        ext i
        unfold pendingHeights
        rw [List.mem_toFinset, ← AList.mem_keys, AList.mem_insert, Finset.mem_insert,
          List.mem_toFinset, ← AList.mem_keys]
      · rw [if_neg hrequest, if_neg fun h => hrequest h.2]

theorem takenHeights_succ (inputs : Nat → RoundInput) (bs : BlockSyncer) (n : Nat) :
    bs.takenHeights inputs (n + 1) =
      if bs.taken inputs n = true then insert (bs.loopHeight n) (bs.takenHeights inputs n)
      else bs.takenHeights inputs n := by
  unfold takenHeights
  rw [Finset.range_add_one, Finset.filter_insert]
  split
  · rw [Finset.image_insert]
  · rfl

/-- What is pending after some rounds. -/
theorem pendingHeights_loopRounds (inputs : Nat → RoundInput) (bs : BlockSyncer) (k : Nat) :
    (loopRounds inputs (bs.nextHeight, bs) k).2.targetHeight = bs.targetHeight ∧
    (loopRounds inputs (bs.nextHeight, bs) k).2.pendingHeights =
      bs.pendingHeights ∪ bs.takenHeights inputs k := by
  induction k with
  | zero => exact ⟨rfl, (Finset.union_empty _).symm⟩
  | succ k ih =>
    obtain ⟨htarget, hpending⟩ := ih
    obtain ⟨pending, hframe⟩ := requestHeight_frame (inputs k).peers (inputs k).request
      (inputs k).now (loopRounds inputs (bs.nextHeight, bs) k).1
      (loopRounds inputs (bs.nextHeight, bs) k).2
    refine ⟨(congrArg targetHeight hframe).trans htarget, ?_⟩
    show (requestHeight _ _ _ _ _).pendingHeights = _
    rw [pendingHeights_requestHeight, hpending, fst_loopRounds, takenHeights_succ]
    have htaken : (findPeerForHeight (inputs k).peers (bs.loopHeight k) ≠ [] ∧
        (inputs k).request (findPeerForHeight (inputs k).peers (bs.loopHeight k))
          (bs.loopHeight k) = true) ↔ bs.taken inputs k = true := by
      rw [taken, Bool.and_eq_true, decide_eq_true_eq]
    by_cases h : bs.taken inputs k = true
    · rw [if_pos (htaken.mpr h), if_pos h, Finset.union_insert]
    · rw [if_neg (mt htaken.mp h), if_neg h]

theorem loopDone_iff (inputs : Nat → RoundInput) (bs : BlockSyncer) (k : Nat) :
    LoopDone (loopRounds inputs (bs.nextHeight, bs) k) ↔ bs.targetHeight < bs.loopHeight k ∨
      maxPendingRequests ≤ (bs.pendingHeights ∪ bs.takenHeights inputs k).card := by
  obtain ⟨htarget, hpending⟩ := pendingHeights_loopRounds inputs bs k
  unfold LoopDone
  rw [fst_loopRounds, htarget, ← card_pendingHeights, hpending]

/-- Below the greatest `int64` the height exceeds the target at some time; up there only
requests end the loop. -/
theorem exists_loopDone_iff (inputs : Nat → RoundInput) (bs : BlockSyncer) :
    (∃ k, LoopDone (loopRounds inputs (bs.nextHeight, bs) k)) ↔
      (maxInt64 ≤ bs.targetHeight →
        ∃ n, maxPendingRequests ≤ (bs.pendingHeights ∪ bs.takenHeights inputs n).card) := by
  constructor
  · rintro ⟨k, hdone⟩ htarget
    rcases (loopDone_iff inputs bs k).mp hdone with hlt | hpending
    · exact absurd (hlt.trans_le (wrapInt64_le_maxInt64 _)) (not_lt.mpr htarget)
    · exact ⟨k, hpending⟩
  · intro h
    by_cases htarget : maxInt64 ≤ bs.targetHeight
    · obtain ⟨n, hpending⟩ := h htarget
      exact ⟨n, (loopDone_iff inputs bs n).mpr (.inr hpending)⟩
    · obtain ⟨k, hk⟩ := exists_loopHeight_eq bs
      exact ⟨k, (loopDone_iff inputs bs k).mpr (.inl (hk ▸ not_le.mp htarget))⟩

/-! ## After `UpdateTargetHeight` -/

/-- The target is one of the heights. -/
theorem lt_foldl_max_iff (peers : List SyncPeer) (a b : Int) :
    b < peers.foldl (fun height peer => max height peer.height) a ↔
      b < a ∨ ∃ peer ∈ peers, b < peer.height := by
  induction peers generalizing a with
  | nil => simp
  | cons peer rest ih =>
    rw [List.foldl_cons, ih, lt_max_iff, or_assoc, List.exists_mem_cons_iff]

/-- `UpdateTargetHeight`: below the target the syncer is syncing afterwards, and at the target
it stops to be. -/
theorem updateTargetHeight_eq (peers : List SyncPeer) (bs : BlockSyncer) :
    (bs.updateTargetHeight peers).syncer.currentHeight = bs.currentHeight ∧
    (bs.updateTargetHeight peers).syncer.pendingRequests = bs.pendingRequests ∧
    (bs.updateTargetHeight peers).syncer.targetHeight =
      peers.foldl (fun height peer => max height peer.height) bs.currentHeight ∧
    (bs.updateTargetHeight peers).syncer.state =
      if bs.currentHeight < (bs.updateTargetHeight peers).syncer.targetHeight then .syncing
      else if bs.state = .syncing then .caughtUp
      else bs.state := by
  unfold updateTargetHeight
  dsimp only
  by_cases hle : peers.foldl (fun height peer => max height peer.height) bs.currentHeight ≤
      bs.currentHeight
  · rw [if_pos hle]
    by_cases hstate : bs.state = .syncing
    · rw [if_pos hstate, if_neg (not_lt.mpr hle), if_pos hstate]
      exact ⟨rfl, rfl, rfl, rfl⟩
    · rw [if_neg hstate, if_neg (not_lt.mpr hle), if_neg hstate]
      exact ⟨rfl, rfl, rfl, rfl⟩
  · rw [if_neg hle]
    by_cases hstate : bs.state = .idle ∨ bs.state = .caughtUp
    · rw [if_pos hstate, if_pos (not_le.mp hle)]
      exact ⟨rfl, rfl, rfl, rfl⟩
    · rw [if_neg hstate, if_pos (not_le.mp hle)]
      refine ⟨rfl, rfl, rfl, ?_⟩
      -- neither idle nor caught up
      cases hsync : bs.state with
      | idle => exact absurd (.inl hsync) hstate
      | syncing => rfl
      | caughtUp => exact absurd (.inr hsync) hstate

theorem syncing_updateTargetHeight_iff (peers : List SyncPeer) (bs : BlockSyncer) :
    (bs.updateTargetHeight peers).syncer.state = .syncing ↔
      bs.currentHeight < (bs.updateTargetHeight peers).syncer.targetHeight := by
  obtain ⟨-, -, -, hstate⟩ := updateTargetHeight_eq peers bs
  rw [hstate]
  split_ifs with hlt hsyncing
  · exact iff_of_true rfl hlt
  · exact iff_of_false (by rintro ⟨⟩) hlt
  · exact iff_of_false hsyncing hlt

/-- The target is out of the loop's reach exactly if a peer above the syncer reports the
greatest `int64`. -/
theorem target_unreachable_iff (peers : List SyncPeer) (bs : BlockSyncer) :
    ((bs.updateTargetHeight peers).syncer.state = .syncing ∧
      maxInt64 ≤ (bs.updateTargetHeight peers).syncer.targetHeight) ↔
    ∃ peer ∈ peers, maxInt64 ≤ peer.height ∧ bs.currentHeight < peer.height := by
  obtain ⟨-, -, htarget, -⟩ := updateTargetHeight_eq peers bs
  rw [syncing_updateTargetHeight_iff, htarget, ← Int.sub_one_lt_iff, lt_foldl_max_iff,
    lt_foldl_max_iff]
  constructor
  · rintro ⟨hself | ⟨peer, hpeer, hlt⟩, hmax⟩
    · exact absurd hself (lt_irrefl _)
    · by_cases htop : maxInt64 ≤ bs.currentHeight
      · exact ⟨peer, hpeer, by omega, hlt⟩
      · rcases hmax with hmax | ⟨top, htop', hmax⟩
        · omega
        · exact ⟨top, htop', by omega, by omega⟩
  · rintro ⟨peer, hpeer, hmax, hlt⟩
    exact ⟨.inr ⟨peer, hpeer, hlt⟩, .inr ⟨peer, hpeer, by omega⟩⟩

theorem takenHeights_congr {bs bs' : BlockSyncer} (h : bs'.currentHeight = bs.currentHeight)
    (inputs : Nat → RoundInput) (n : Nat) :
    bs'.takenHeights inputs n = bs.takenHeights inputs n := by
  unfold takenHeights taken loopHeight
  rw [h]

/-- **When requesting blocks ends.** After `UpdateTargetHeight`, whatever the peers and the
provider do during the loop, `requestMissingBlocks` returns exactly if no peer above the
syncer reports the greatest `int64`, or else the requests that are taken fill the pending
ones up to their maximum. -/
theorem returns_iff (peers : List SyncPeer) (inputs : Nat → RoundInput) (bs : BlockSyncer) :
    Returns inputs (bs.updateTargetHeight peers).syncer ↔
      ((∃ peer ∈ peers, maxInt64 ≤ peer.height ∧ bs.currentHeight < peer.height) →
        ∃ n, maxPendingRequests ≤ (bs.pendingHeights ∪ bs.takenHeights inputs n).card) := by
  obtain ⟨hcurrent, hpending, -, -⟩ := updateTargetHeight_eq peers bs
  have hheights : (bs.updateTargetHeight peers).syncer.pendingHeights = bs.pendingHeights := by
    unfold pendingHeights
    rw [hpending]
  unfold Returns
  rw [exists_loopDone_iff, ← target_unreachable_iff, and_imp, hheights]
  simp only [takenHeights_congr hcurrent]

/-! ## A loop that does not end -/

/-- One peer reports the greatest `int64`, and the provider takes no request. -/
theorem requests_never_end :
    ¬ Returns (fun _ => ⟨[⟨[1], maxInt64⟩], fun _ _ => false, 0⟩)
      ((newBlockSyncer [] none false false).updateTargetHeight [⟨[1], maxInt64⟩]).syncer := by
  intro hreturns
  obtain ⟨k, hdone⟩ := hreturns (by decide)
  rcases (loopDone_iff _ _ k).mp hdone with hlt | hpending
  · exact absurd hlt (not_lt.mpr ((wrapInt64_le_maxInt64 _).trans (by decide)))
  · -- nothing is pending and nothing is taken
    have hnone : ((newBlockSyncer [] none false false).updateTargetHeight
        [⟨[1], maxInt64⟩]).syncer.takenHeights
          (fun _ => ⟨[⟨[1], maxInt64⟩], fun _ _ => false, 0⟩) k = ∅ := by
      unfold takenHeights taken
      simp
    rw [hnone] at hpending
    exact absurd hpending (by decide)

end Leaderberry.BlockSyncer
