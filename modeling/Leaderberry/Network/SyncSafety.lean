import Leaderberry.Engine.Certificate
import Leaderberry.Engine.SyncRun
import Leaderberry.Network.Agreement

/-!
# Block sync and the decisions of the network

A node that has fallen behind takes blocks from its peers. `ReceiveBlock` trusts nothing about
a block but the commit that came with it, and a commit may be put together by anybody. It is
still bound to the log of the network: behind it stands a quorum of precommits, and those of
correct validators were cast (`Consistent.commit_backed`). So what a syncer takes is what the
network decides.

- `Fed`: what is asked of those around a syncer. The set that it has been given is the one in
  force at the height of a block that it is sent, and nobody forges a signature.
- `synced_blocks_agree`: the blocks that syncers store or hand over and the blocks that correct
  nodes apply have one hash for each height.

The first condition is a real one: `BlockSyncer` verifies every block against the set it was
last given, and nothing in it looks at the validators that a block changes.
-/

namespace Leaderberry

open LockedVoting

section syncer

variable [Externals] {bs : BlockSyncer} {a : SyncAction}

/-- The block that the store or the callback is given. -/
def SyncAction.block? : SyncAction → Option Block
  | saveBlock b _ => some b
  | blockCommitted b _ => some b
  | caughtUp => none

omit [Externals] in
theorem BlockSyncer.mem_progress {block : Block} {commit : Commit}
    (ha : a ∈ (bs.progress block commit).actions) :
    a = .saveBlock block commit ∨ a = .blockCommitted block commit ∨ a = .caughtUp := by
  unfold BlockSyncer.progress at ha
  dsimp only at ha
  split_ifs at ha <;> simp at ha <;> tauto

omit [Externals] in
theorem BlockSyncer.mem_updateTargetHeight {peers : List SyncPeer}
    (ha : a ∈ (bs.updateTargetHeight peers).actions) : a = .caughtUp := by
  unfold BlockSyncer.updateTargetHeight at ha
  dsimp only at ha
  split_ifs at ha <;> simp at ha
  exact ha

/-- A block that a call stores or hands over came with a commit that verified. -/
theorem BlockSyncer.verified_of_mem {saved : Bool} {block : Option Block} {commit : Option Commit}
    {b : Block} (ha : a ∈ (bs.receiveBlock saved block commit).actions) (hb : a.block? = some b) :
    ∃ c, block = some b ∧ commit = some c ∧
      verifyCommit bs.chainID bs.valSet (blockHash b) b.header.height (some c) = .ok () := by
  obtain ⟨e, hreject⟩ | ⟨b', c, rfl, rfl, hverify, hcall⟩ :=
    BlockSyncer.receiveBlock_cases saved block commit bs
  · rw [hreject] at ha
    cases ha
  · suffices heq : b = b' by
      subst heq
      exact ⟨c, rfl, rfl, hverify⟩
    rw [hcall] at ha
    cases saved with
    | true =>
      rcases BlockSyncer.mem_progress ha with rfl | rfl | rfl
      · exact (Option.some_inj.mp hb).symm
      · exact (Option.some_inj.mp hb).symm
      · cases hb
    | false =>
      obtain rfl := List.mem_singleton.mp ha
      exact (Option.some_inj.mp hb).symm

namespace SyncNode

theorem chainID_step (node : SyncNode) (op : SyncOp) :
    (node.step op).syncer.chainID = node.syncer.chainID := by
  cases op with
  | start =>
    rw [step, start]
    split <;> rfl
  | stop => rfl
  | updateTargetHeight peers =>
    show (node.syncer.updateTargetHeight peers).syncer.chainID = _
    unfold BlockSyncer.updateTargetHeight
    dsimp only
    split_ifs <;> rfl
  | requestMissingBlocks peers request now rounds =>
    obtain ⟨pending, hframe⟩ := node.syncer.requestMissingBlocks_frame peers request now rounds
    show (node.syncer.requestMissingBlocks peers request now rounds).chainID = _
    rw [hframe]
  | checkTimeouts now => rfl
  | updateValidatorSet valSet => rfl
  | receiveBlock saved block commit =>
    show (node.syncer.receiveBlock saved block commit).syncer.chainID = _
    obtain ⟨e, hreject⟩ | ⟨b, c, rfl, rfl, -, hcall⟩ :=
      BlockSyncer.receiveBlock_cases saved block commit node.syncer
    · rw [hreject]
      rfl
    · rw [hcall]
      cases saved with
      | false => rfl
      | true =>
        show (node.syncer.progress b c).syncer.chainID = _
        unfold BlockSyncer.progress
        dsimp only
        split_ifs <;> rfl

theorem chainID_run (node : SyncNode) (ops : List SyncOp) :
    (node.run ops).syncer.chainID = node.syncer.chainID := by
  induction ops using List.reverseRecOn with
  | nil => rfl
  | append_singleton ops op ih => rw [run_concat, chainID_step, ih]

/-- What a call adds to the log of blocks comes from `ReceiveBlock`. -/
theorem block_of_mem_step {node : SyncNode} {op : SyncOp} {a : SyncAction} {b : Block}
    (ha : a ∈ (node.step op).log) (hb : a.block? = some b) :
    a ∈ node.log ∨ ∃ saved c, op = .receiveBlock saved (some b) (some c) ∧
      verifyCommit node.syncer.chainID node.syncer.valSet (blockHash b) b.header.height (some c)
        = .ok () := by
  cases op with
  | start =>
    rw [step, start] at ha
    split at ha <;> exact .inl ha
  | stop => exact .inl ha
  | updateTargetHeight peers =>
    rcases List.mem_append.mp ha with ha | ha
    · exact .inl ha
    · -- at most the callback that tells the end
      rw [BlockSyncer.mem_updateTargetHeight ha] at hb
      cases hb
  | requestMissingBlocks peers request now rounds => exact .inl ha
  | checkTimeouts now => exact .inl ha
  | updateValidatorSet valSet => exact .inl ha
  | receiveBlock saved block commit =>
    rcases List.mem_append.mp ha with ha | ha
    · exact .inl ha
    · obtain ⟨c, rfl, rfl, hverify⟩ := BlockSyncer.verified_of_mem ha hb
      exact .inr ⟨saved, c, rfl, hverify⟩

/-- A block in the log of a run was received with a commit that verified at that point. -/
theorem received_of_mem_log {node : SyncNode} (hlog : node.log = []) {ops : List SyncOp}
    {a : SyncAction} {b : Block} (ha : a ∈ (node.run ops).log) (hb : a.block? = some b) :
    ∃ before saved c, before ++ [.receiveBlock saved (some b) (some c)] <+: ops ∧
      verifyCommit node.syncer.chainID (node.run before).syncer.valSet (blockHash b)
        b.header.height (some c) = .ok () := by
  induction ops using List.reverseRecOn with
  | nil =>
    rw [show (node.run []).log = node.log from rfl, hlog] at ha
    cases ha
  | append_singleton ops op ih =>
    rw [run_concat] at ha
    rcases block_of_mem_step ha hb with ha | ⟨saved, c, rfl, hverify⟩
    · obtain ⟨before, saved, c, hbefore, hverify⟩ := ih ha
      exact ⟨before, saved, c, hbefore.trans (List.prefix_append ..), hverify⟩
    · rw [chainID_run] at hverify
      exact ⟨ops, saved, c, List.prefix_rfl, hverify⟩

end SyncNode

end syncer

section

variable [Externals] {ι : Type} {S : Network ι} {net : ι → Node} {log : List Vote}
  {vs : ValidatorSet} {height : Int} {hash : Hash}

/-- No signature counts for an empty hash. -/
theorem not_empty_of_verifyCommit {chainID : GoString} (hwf : vs.Wf) {c : Commit}
    (h : verifyCommit chainID (some vs) hash height (some c) = .ok ()) :
    isHashEmpty (some hash) = false := by
  obtain ⟨-, -, -, -, hpower⟩ := verifyCommit_counted h
  by_contra hempty
  have hnone : c.signatures.filter (CommitSig.counts hash) = [] := by
    rw [List.filter_eq_nil_iff]
    intro sig _ hcounts
    simp only [CommitSig.counts, Bool.and_eq_true, beq_iff_eq, Bool.not_eq_true'] at hcounts
    rw [hcounts.2] at hcounts
    exact hempty hcounts.1.2
  rw [hnone] at hpower
  have hpos := hwf.totalPower_pos
  have hquorum := (ValidatorSet.twoThirdsMajority_le_iff hpos 0).mp hpower
  omega

/-- Behind a commit that verifies stands a quorum whose correct members precommitted the
block. -/
theorem Consistent.commit_backed (h : Consistent S net log) (hwf : vs.Wf) {c : Commit}
    (hverify : verifyCommit S.chainID (some vs) hash height (some c) = .ok ())
    (hauthentic : ∀ v ∈ c.votes vs, S.Authentic net v) :
    Backed hwf.electorate (S.Correct vs) (ballots log height) .precommit c.round hash := by
  obtain ⟨Q, hQ, hvotes⟩ := verifyCommit_quorum hwf hverify
  refine ⟨Q, hQ, fun i hi hcorrect => ?_⟩
  obtain ⟨v, hv, hback⟩ := hvotes i hi
  obtain ⟨j, hj⟩ := hcorrect
  obtain ⟨val, hval, hsig⟩ := hback.signed
  rw [hval] at hj
  rw [Option.some_inj.mp hj] at hsig
  -- the correct validator cast the vote that the commit has its signature on
  obtain ⟨⟨cs, w⟩, hcast, heq⟩ := hauthentic v hv j hsig
  obtain ⟨hballot, hheight⟩ := ballot_unsigned heq
  refine mem_ballots.mpr ⟨w, (h.logged w).mpr ⟨j, cs, hcast⟩, hheight.trans hback.height,
    hballot.trans ?_⟩
  have hhash := blockHash_of_key (not_empty_of_verifyCommit hwf hverify) hback.key
  simp only [Vote.ballot, hback.index, hback.type, hback.round, hhash]
  rfl

/-- What is asked of those around a syncer that was set up for the chain of the network. -/
structure Fed (S : Network ι) (net : ι → Node) (node : SyncNode) (ops : List SyncOp) : Prop where
  chainID : node.syncer.chainID = S.chainID
  fresh : node.log = []
  inForce : ∀ before saved b c, before ++ [.receiveBlock saved (some b) (some c)] <+: ops →
    ∀ vs, (node.run before).syncer.valSet = some vs → InForce net b.header.height vs
  authentic : ∀ before saved b c, before ++ [.receiveBlock saved (some b) (some c)] <+: ops →
    ∀ vs, (node.run before).syncer.valSet = some vs → ∀ v ∈ c.votes vs, S.Authentic net v

/-- A block with a quorum of precommits behind it, of the validators in force. -/
def DecidedAt (S : Network ι) (net : ι → Node) (log : List Vote) (height : Int) (hash : Hash) :
    Prop :=
  ∃ vs, InForce net height vs ∧ ∃ hwf : vs.Wf, ∃ r,
    Backed hwf.electorate (S.Correct vs) (ballots log height) .precommit r hash

/-- One height has one decision. -/
theorem DecidedAt.unique (h : Consistent S net log) (hcareful : Careful S net) {hash' : Hash}
    (hd : DecidedAt S net log height hash) (hd' : DecidedAt S net log height hash') :
    hash = hash' := by
  obtain ⟨vs, hforce, hwf, r, hback⟩ := hd
  obtain ⟨vs', hforce', hwf', r', hback'⟩ := hd'
  obtain rfl := hcareful.inForce_unique h.member (fun height' _ => h.lawful height') hforce hforce'
  exact (h.lawful _ _ hforce hwf).agreement (hcareful.minor _ _ hforce hwf) hback hback'

theorem decidedAt_applied (h : Consistent S net log) {i : ι} {cs : ConsensusState} {b : Block}
    (hmem : (cs, b) ∈ (net i).applied) : DecidedAt S net log cs.height (blockHash b) := by
  obtain ⟨c, result, hmem⟩ := Node.mem_applied.mp hmem
  obtain ⟨-, hwf, -⟩ := (h.member i).view.applied cs b c result hmem
  obtain ⟨r, hback⟩ := (h.member i).applied_backed hmem hwf
  exact ⟨cs.validatorSet, inForce_of_mem hmem, hwf, r, hback⟩

/-- A set in force is well formed. -/
theorem InForce.wf (h : Consistent S net log) (hforce : InForce net height vs) : vs.Wf := by
  obtain ⟨i, cs, hcs, -, rfl⟩ := hforce
  rcases (h.member i).descends cs hcs with ⟨-, hset⟩ | ⟨-, cs₁, b, c, updates, hmem, -, hnext⟩
  · rw [hset, ← S.launch_validatorSet i]
    exact (S.launch i).wf
  · obtain ⟨-, hwf, -⟩ := (h.member i).view.applied cs₁ b c _ hmem
    exact wf_nextValidatorSet hwf hnext

theorem decidedAt_synced (h : Consistent S net log) {node : SyncNode} {ops : List SyncOp}
    (hfed : Fed S net node ops) {a : SyncAction} {b : Block} (ha : a ∈ (node.run ops).log)
    (hb : a.block? = some b) : DecidedAt S net log b.header.height (blockHash b) := by
  obtain ⟨before, saved, c, hbefore, hverify⟩ := SyncNode.received_of_mem_log hfed.fresh ha hb
  rw [hfed.chainID] at hverify
  cases hset : (node.run before).syncer.valSet with
  | none =>
    rw [hset] at hverify
    cases hverify
  | some vs =>
    rw [hset] at hverify
    have hforce := hfed.inForce before saved b c hbefore vs hset
    have hwf := hforce.wf h
    exact ⟨vs, hforce, hwf, c.round,
      h.commit_backed hwf hverify (hfed.authentic before saved b c hbefore vs hset)⟩

/-- **Synced blocks agree with the decisions.** In a network run in which no lock is given up
for nil, a block that a syncer stores or hands over has the hash of every block that a correct
node applies at that height, and of every block that any syncer takes for that height. -/
theorem synced_blocks_agree [DecidableEq ι] (h : S.Reachable net) (hcareful : Careful S net)
    {node : SyncNode} {ops : List SyncOp} (hfed : Fed S net node ops) {a : SyncAction} {b : Block}
    (ha : a ∈ (node.run ops).log) (hb : a.block? = some b) :
    (∀ i cs b', (cs, b') ∈ (net i).applied → cs.height = b.header.height →
      blockHash b' = blockHash b) ∧
    ∀ node' ops', Fed S net node' ops' → ∀ a' ∈ (node'.run ops').log, ∀ b',
      a'.block? = some b' → b'.header.height = b.header.height → blockHash b' = blockHash b := by
  obtain ⟨log, hcons⟩ := h.consistent hcareful
  have hdecided := decidedAt_synced hcons hfed ha hb
  constructor
  · intro i cs b' hmem hheight
    have happlied := decidedAt_applied hcons hmem
    rw [hheight] at happlied
    exact happlied.unique hcons hcareful hdecided
  · intro node' ops' hfed' a' ha' b' hb' hheight
    have hsynced := decidedAt_synced hcons hfed' ha' hb'
    rw [hheight] at hsynced
    exact hsynced.unique hcons hcareful hdecided

end

section runs

attribute [local instance] transparent

/-- The commit of the first block by validators 2 and 3. -/
def peerCommit : Commit where
  height := 1
  round := 0
  blockHash := blockHash (Scenario.block 1 1)
  signatures := [(2, 1), (3, 2)].map fun (x : Byte × Nat) =>
    { validatorIndex := x.2
      signature := (Scenario.vote x.1 x.2 .precommit 1 0 (Scenario.block 1 1)).signature
      timestamp := 0
      blockHash := some (blockHash (Scenario.block 1 1)) }

/-- A syncer beside the two nodes. -/
def lateNode : SyncNode :=
  { Scenario.idleNode with
    syncer := { Scenario.idleNode.syncer with valSet := some forkValidators.1 } }

def lateOps : List SyncOp :=
  [.start, .receiveBlock true (some (Scenario.block 1 1)) (some peerCommit)]

theorem fed_late : Fed forkNetwork (forkNet decisionEvents proposerEvents) lateNode lateOps := by
  have honly : ∀ before saved b c, before ++ [.receiveBlock saved (some b) (some c)] <+: lateOps →
      before = [.start] ∧ b = Scenario.block 1 1 ∧ c = peerCommit := by
    intro before saved b c h
    match before with
    | [] =>
      obtain ⟨rest, hrest⟩ := h
      cases hrest
    | [op] =>
      obtain ⟨rest, hrest⟩ := h
      cases hrest
      exact ⟨rfl, rfl, rfl⟩
    | op :: op' :: rest =>
      have hlen := h.length_le
      simp [lateOps] at hlen
  have hforce : ∃ i, ∃ cs ∈ (forkNet decisionEvents proposerEvents i).states,
      cs.height = 1 ∧ cs.validatorSet = forkValidators.1 := by
    decide +kernel
  have hauthentic : ∀ v ∈ peerCommit.votes forkValidators.1,
      forkNetwork.Authentic (forkNet decisionEvents proposerEvents) v := by
    decide +kernel
  refine { chainID := rfl, fresh := rfl, inForce := ?_, authentic := ?_ }
  · intro before saved b c h vs hset
    obtain ⟨rfl, rfl, rfl⟩ := honly before saved b c h
    cases hset
    exact hforce
  · intro before saved b c h vs hset
    obtain ⟨rfl, rfl, rfl⟩ := honly before saved b c h
    cases hset
    exact hauthentic

theorem reachable_decision :
    forkNetwork.Reachable (forkNet decisionEvents proposerEvents) := by
  refine Scenario.reachable_pair _ _ _ _ ?_ ?_ <;> decide +kernel

/-- The block that the syncer stores is the one that validator 1 applied. -/
theorem synced_blocks_agree_late :
    ∃ x ∈ (forkNet decisionEvents proposerEvents 0).applied,
      .saveBlock (Scenario.block 1 1) peerCommit ∈ (lateNode.run lateOps).log ∧
        blockHash x.2 = blockHash (Scenario.block 1 1) := by
  have happlied : ∃ x ∈ (forkNet decisionEvents proposerEvents 0).applied,
      x.1.height = (Scenario.block 1 1).header.height := by
    decide +kernel
  have hsaved : .saveBlock (Scenario.block 1 1) peerCommit ∈ (lateNode.run lateOps).log := by
    decide +kernel
  obtain ⟨x, hx, hheight⟩ := happlied
  exact ⟨x, hx, hsaved,
    (synced_blocks_agree reachable_decision careful_decision fed_late hsaved rfl).1
      0 x.1 x.2 hx hheight⟩

end runs

end Leaderberry
