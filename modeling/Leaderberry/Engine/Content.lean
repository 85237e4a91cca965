import Leaderberry.Engine.BlockSync
import Leaderberry.Engine.Chain

/-!
# What a block hash binds

`BlockHash` covers the header, and every consumer of a commit compares hashes:
`VerifyCommit`, `BlockSyncer.ReceiveBlock` and `finalizeCommitLocked` take any block with
the header that was voted for. No header field commits to the batch digests, the evidence
or the last commit, so two blocks that differ only there pass for each other
(`content_bound_iff`, `swapped_body_saved`).
-/

namespace Leaderberry

/-- The parts of a block that are outside of its header are equal. -/
structure Block.SameBody (b₁ b₂ : Block) : Prop where
  batchDigests : b₁.data.batchDigests = b₂.data.batchDigests
  evidence : b₁.evidence = b₂.evidence
  lastCommit : b₁.lastCommit = b₂.lastCommit

/-- All parts of the blocks are equal. -/
def Block.SameContent (b₁ b₂ : Block) : Prop := b₁.header = b₂.header ∧ b₁.SameBody b₂

section content

variable [Externals]

/-! ## What `finalizeCommitLocked` applies -/

/-- The node applies `b` when it finalizes `commit`. -/
def Node.Applies (env : Env) (commit : Commit) (b : Block) (n : Node) : Prop :=
  (n.finalizeCommit env commit).calls = (n.cs, b, commit) :: n.calls

omit [Externals] in
theorem calls_walWrite (env : Env) (m : Message) (n : Node) :
    (n.walWrite env m true).calls = n.calls := by
  rcases walWrite_cases env m n with hw | hw
  · rw [hw, Node.calls, List.filterMap_append, filterMap_syncEntry _ _ _ rfl]
    rfl
  · rw [hw]
    rfl

theorem calls_finishCommit (env : Env) (commit : Commit) (updates : List ValidatorUpdate)
    (n : Node) : (n.finishCommit env commit updates).calls = n.calls := by
  unfold Node.finishCommit
  split
  · rfl
  · rename_i newSet _
    rw [← calls_walWrite env (.ofEndHeight n.cs.height) n]
    unfold Node.andThen
    split
    · exact calls_advanceHeight commit newSet _
    · rfl

theorem calls_applyCommitted (env : Env) (block : Block) (commit : Commit) {n : Node}
    (hexec : n.cs.hasExecutor = true) :
    (n.applyCommitted env block commit).calls = (n.cs, block, commit) :: n.calls := by
  unfold Node.applyCommitted
  rw [if_pos hexec]
  dsimp only
  split
  · rfl
  · rw [calls_finishCommit]
    rfl

/-- It applies the locked block, else the proposed one, if the hash is the certified one. -/
theorem Node.applies_iff {env : Env} {commit : Commit} {b : Block} {n : Node} :
    n.Applies env commit b ↔ n.cs.hasExecutor = true ∧
      n.cs.lockedBlock.or n.cs.proposalBlock = some b ∧ blockHash b = commit.blockHash := by
  unfold Node.Applies Node.finalizeCommit
  cases hblock : n.cs.lockedBlock.or n.cs.proposalBlock with
  | none => simp [Node.calls, Node.halt]
  | some block =>
    dsimp only
    split
    · rename_i hhash
      refine iff_of_false (fun h => List.cons_ne_self _ _ h.symm) ?_
      rintro ⟨-, hb, heq⟩
      cases hb
      exact hhash heq
    · rename_i hhash
      cases hexec : n.cs.hasExecutor with
      | false =>
        rw [Node.applyCommitted, hexec, if_neg Bool.false_ne_true, calls_finishCommit]
        exact iff_of_false (fun h => List.cons_ne_self _ _ h.symm) fun h => Bool.false_ne_true h.1
      | true =>
        rw [calls_applyCommitted env block commit hexec]
        constructor
        · intro h
          cases h
          exact ⟨rfl, rfl, not_not.mp hhash⟩
        · rintro ⟨-, hb, -⟩
          cases hb
          rfl

/-! ## What the hash determines -/

/-- A hash without collisions over an injective encoding: equal hashes, equal headers. -/
theorem blockHash_eq_iff {b₁ b₂ : Block}
    (hsha : Externals.sha256 (Externals.marshalBlockHeader b₁.header)
        = Externals.sha256 (Externals.marshalBlockHeader b₂.header) →
      Externals.marshalBlockHeader b₁.header = Externals.marshalBlockHeader b₂.header)
    (hencode : Externals.marshalBlockHeader b₁.header
        = Externals.marshalBlockHeader b₂.header → b₁.header = b₂.header) :
    blockHash b₁ = blockHash b₂ ↔ b₁.header = b₂.header := by
  constructor
  · intro h
    exact hencode (hsha (congrArg Hash.data h))
  · intro h
    rw [blockHash, blockHash, h]

omit [Externals] in
/-- If acceptance is a matter of the header, then accepting both blocks means that they
are equal exactly when they do not differ in the body alone. -/
theorem bound_iff {b₁ b₂ : Block} {accepts : Prop} (h : accepts ↔ b₁.header = b₂.header) :
    (accepts → b₁.SameContent b₂) ↔ (b₁.header = b₂.header → b₁.SameBody b₂) := by
  rw [h]
  exact ⟨fun hs heq => (hs heq).2, fun hb heq => ⟨heq, hb heq⟩⟩

/-- The block hash, and with it a verified commit, a synced block and an applied block,
determine the content exactly for blocks that do not share a header with another body. -/
theorem content_bound_iff (b₁ b₂ : Block)
    (hsha : Externals.sha256 (Externals.marshalBlockHeader b₁.header)
        = Externals.sha256 (Externals.marshalBlockHeader b₂.header) →
      Externals.marshalBlockHeader b₁.header = Externals.marshalBlockHeader b₂.header)
    (hencode : Externals.marshalBlockHeader b₁.header
        = Externals.marshalBlockHeader b₂.header → b₁.header = b₂.header) :
    ((blockHash b₁ = blockHash b₂ → b₁.SameContent b₂) ↔
      (b₁.header = b₂.header → b₁.SameBody b₂)) ∧
    (∀ chainID valSet height commit,
      verifyCommit chainID valSet (blockHash b₁) height (some commit) = .ok () →
      ((verifyCommit chainID valSet (blockHash b₂) height (some commit) = .ok () →
        b₁.SameContent b₂) ↔ (b₁.header = b₂.header → b₁.SameBody b₂))) ∧
    (∀ (bs : BlockSyncer) saved commit,
      .saveBlock b₁ commit ∈ (bs.receiveBlock saved (some b₁) (some commit)).actions →
      ((.saveBlock b₂ commit ∈ (bs.receiveBlock saved (some b₂) (some commit)).actions →
        b₁.SameContent b₂) ↔ (b₁.header = b₂.header → b₁.SameBody b₂))) ∧
    ∀ env commit (n : Node), n.Applies env commit b₁ →
      (((∃ env' n', Node.Applies env' commit b₂ n') → b₁.SameContent b₂) ↔
        (b₁.header = b₂.header → b₁.SameBody b₂)) := by
  have hhash := blockHash_eq_iff hsha hencode
  refine ⟨bound_iff hhash, fun chainID valSet height commit h => bound_iff ?_,
    fun bs saved commit h => bound_iff ?_, fun env commit n h => bound_iff ?_⟩
  · rw [← hhash]
    constructor
    · intro h'
      rw [← (verifyCommit_target h).2, (verifyCommit_target h').2]
    · intro heq
      rw [← heq]
      exact h
  · have hverify := ((bs.receiveBlock_saves_iff saved b₁ commit).mp h).2
    constructor
    · intro h'
      have hverify' := ((bs.receiveBlock_saves_iff saved b₂ commit).mp h').2
      rw [← hhash, ← (verifyCommit_target hverify).2, (verifyCommit_target hverify').2]
    · intro heq
      rw [BlockSyncer.receiveBlock_saves_iff] at h ⊢
      rw [← heq, ← hhash.mpr heq]
      exact h
  · obtain ⟨hexec, -, hcertified⟩ := Node.applies_iff.mp h
    constructor
    · rintro ⟨env', n', h'⟩
      rw [← hhash, hcertified, (Node.applies_iff.mp h').2.2]
    · intro heq
      -- The same node, had it been locked on the other block.
      refine ⟨env, { n with cs := { n.cs with lockedBlock := some b₂ } }, ?_⟩
      exact Node.applies_iff.mpr ⟨hexec, rfl, by rw [← hhash.mpr heq, hcertified]⟩

end content

section blocks

attribute [local instance] transparent

/-- A block that adds a batch digest to another one, under the same header. -/
def Block.withDigest (b : Block) (digest : Hash) : Block :=
  { b with data := ⟨digest :: b.data.batchDigests⟩ }

/-- The commit of a block by the one validator that is a quorum. -/
def soloCommit (b : Block) : Commit where
  height := 1
  round := 0
  blockHash := blockHash b
  signatures :=
    let vote := Scenario.vote 1 0 .precommit 1 0 (some b)
    [⟨0, vote.signature, vote.timestamp, vote.blockHash⟩]

/-- A syncer that waits for the first block. -/
def soloSyncer : BlockSyncer where
  chainID := []
  state := .syncing
  valSet := some soloValidators.1
  startHeight := 0
  targetHeight := 5
  currentHeight := 0
  pendingRequests := ∅
  onBlockCommitted := true
  onCaughtUp := true

/-- With a commit for one block the syncer stores another one: same header, other data. -/
theorem swapped_body_saved :
    let b₁ := Scenario.block 1 0
    let b₂ := b₁.withDigest ⟨[7]⟩
    blockHash b₁ = blockHash b₂ ∧
    .saveBlock b₁ (soloCommit b₁) ∈
      (soloSyncer.receiveBlock true (some b₁) (some (soloCommit b₁))).actions ∧
    .saveBlock b₂ (soloCommit b₁) ∈
      (soloSyncer.receiveBlock true (some b₂) (some (soloCommit b₁))).actions ∧
    ¬ b₁.SameContent b₂ := by
  refine ⟨rfl, by decide +kernel, by decide +kernel, fun h => ?_⟩
  exact List.cons_ne_nil _ _ h.2.batchDigests.symm

/-- Blocks of different times: the commit of the first one is not taken for the other. -/
theorem content_bound_blocks :
    let b₁ := Scenario.block 1 0
    let b₂ := Scenario.block 1 1
    .saveBlock b₁ (soloCommit b₁) ∈
      (soloSyncer.receiveBlock true (some b₁) (some (soloCommit b₁))).actions ∧
    (.saveBlock b₂ (soloCommit b₁) ∈
      (soloSyncer.receiveBlock true (some b₂) (some (soloCommit b₁))).actions →
      b₁.SameContent b₂) := by
  have hsaved : .saveBlock (Scenario.block 1 0) (soloCommit (Scenario.block 1 0)) ∈
      (soloSyncer.receiveBlock true (some (Scenario.block 1 0))
        (some (soloCommit (Scenario.block 1 0)))).actions := by decide +kernel
  obtain ⟨-, -, hsync, -⟩ := content_bound_iff (Scenario.block 1 0) (Scenario.block 1 1)
    (by decide +kernel) (by decide +kernel)
  refine ⟨hsaved, (hsync soloSyncer true _ hsaved).mpr fun h => ?_⟩
  exact absurd h (by decide +kernel)

end blocks

end Leaderberry
