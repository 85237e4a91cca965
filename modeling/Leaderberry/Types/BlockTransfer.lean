import Leaderberry.Types.Messages
import Leaderberry.Types.Reassembly

/-!
# Blocks in parts (`types/block_parts.go`)

`BlockPartsFromBlock` encodes a block and splits the bytes; `BlockFromParts` decodes what a
complete part set has put together. Between them the parts travel on their own, in any order
and more than once. `block_transfer`: the block comes out exactly when every part has arrived,
and it is the block that was sent.
-/

namespace Leaderberry

open FieldLoop PrefixCode

inductive BlockPartsError where
  | nilBlock
  | parts (e : PartSetError)
  | unmarshal
deriving DecidableEq

section

variable [Externals] [Cramberry]

/-- `BlockPartsFromBlock`. -/
def blockPartsFromBlock (block : Option Block) : Except BlockPartsError PartSet :=
  match block with
  | none => .error .nilBlock
  | some block => (newPartSetFromData block.encodeTo).mapError .parts

/-- `BlockFromParts`. -/
def blockFromParts (ps : PartSet) : Except BlockPartsError Block :=
  match ps.getData with
  | .error e => .error (.parts e)
  | .ok data =>
    match unmarshal (Block.decodeFrom .zero) data with
    | none => .error .unmarshal
    | some block => .ok block

omit [Externals] in
/-- An encoded block is not empty: the header has its tag. -/
theorem Block.encodeTo_ne_nil (block : Block) : block.encodeTo ≠ [] := by
  intro hnil
  have htag := writeCompactTag_ne_nil (.of 1 .bytes)
  simp only [Block.encodeTo, List.append_eq_nil_iff] at hnil
  exact htag hnil.1.1.1.1.1.1

omit [Externals] [Cramberry] in
theorem lt_partCount {data : Bytes} {count : Nat} (h : count * blockPartSize < data.length) :
    count < partCount data := by
  have hpos : 0 < blockPartSize := by decide
  rw [partCount, Nat.lt_iff_add_one_le, Nat.le_div_iff_mul_le hpos, Nat.add_mul, Nat.one_mul]
  omega

omit [Externals] in
theorem blockFromParts_of_getData {ps : PartSet} {block : Block}
    (h : ps.getData = .ok block.encodeTo) : blockFromParts ps = .ok block := by
  have hdecode := unmarshal_of_restores Block.restores (m := block) trivial []
  rw [List.append_nil] at hdecode
  simp only [blockFromParts, h, hdecode]

/-- **A block survives its transfer.** If the encoding fits into `MaxBlockParts` parts, then
from a part set made of the header alone, by adding parts in any order and any number of
times, `BlockFromParts` gives back the block as soon as no part is missing, and before that
reports that the set is not complete. If the encoding does not fit, there is no part set. -/
theorem block_transfer (block : Block) :
    (maxBlockParts * blockPartSize < block.encodeTo.length →
      blockPartsFromBlock (some block) =
        .error (.parts (.tooManyParts (partCount block.encodeTo)))) ∧
    (block.encodeTo.length ≤ maxBlockParts * blockPartSize →
      ∃ ps recv, blockPartsFromBlock (some block) = .ok ps ∧
        ps.total = partCount block.encodeTo ∧ newPartSetFromHeader ps.header = .ok recv ∧
        ∀ sent : List Nat, (∀ i ∈ sent, i < ps.total) →
          let now := recv.addParts (sent.map ps.getPart)
          ((∀ i < ps.total, i ∈ sent) → blockFromParts now = .ok block) ∧
          ((∃ i < ps.total, i ∉ sent) →
            blockFromParts now = .error (.parts .notComplete))) := by
  constructor
  · intro hlong
    have hcount := lt_partCount hlong
    show (newPartSetFromData block.encodeTo).mapError _ = _
    have hne := List.length_eq_zero_iff.not.mpr block.encodeTo_ne_nil
    rw [newPartSetFromData, if_neg hne, if_pos hcount]
    rfl
  · intro hfits
    obtain ⟨ps, h, r, hps, hsplit⟩ := newPartSetFromData_isSplit block.encodeTo_ne_nil hfits
    obtain ⟨recv, hrecv⟩ : ∃ recv, newPartSetFromHeader ps.header = .ok recv := by
      unfold newPartSetFromHeader PartSet.header
      exact ⟨_, if_neg (Nat.not_lt.mpr hsplit.few)⟩
    have hmade : blockPartsFromBlock (some block) = .ok ps := by
      show (newPartSetFromData block.encodeTo).mapError _ = _
      rw [hps]
      rfl
    refine ⟨ps, recv, hmade, hsplit.total, hrecv, fun sent hsent => ?_⟩
    have hnow := (collects_empty hsplit.pos hrecv).addParts hsplit sent hsent
    rw [Finset.empty_union] at hnow
    constructor
    · intro hall
      exact blockFromParts_of_getData (hnow.getData fun i hi => by simpa using hall i hi)
    · rintro ⟨i, hi, hmissing⟩
      -- the set counts the parts that were sent, and one was not
      have hcount : (recv.addParts (sent.map ps.getPart)).partsCount ≠
          (recv.addParts (sent.map ps.getPart)).total := by
        rw [hnow.count, hnow.total]
        intro hfull
        have hrange := hnow.eq_range hfull
        have hmem : i ∈ sent.toFinset := by
          rw [hrange]
          exact Finset.mem_range.mpr hi
        exact hmissing (List.mem_toFinset.mp hmem)
      simp only [blockFromParts, PartSet.getData, if_pos hcount]

end

section

attribute [local instance] transparent varintCramberry

/-- A block whose only evidence fills a part. -/
def wideBlock : Block := { Block.zero with evidence := [fullPart] }

theorem length_wideBlock : wideBlock.encodeTo.length =
    Block.zero.encodeTo.length + (blockPartSize + 5) := by
  have hcode : (writeCompactTag (.of 3 .bytes) ++ Cramberry.uvarint 1 ++
      Wire.length blockPartSize).length = 5 := by
    decide +kernel
  have hevidence : (encodeList (.of 3 .bytes) writeBytes [fullPart]).length =
      blockPartSize + 5 := by
    rw [← hcode]
    simp only [encodeList, writeBytes, lengthPrefixed, length_fullPart, List.length_append,
      List.length_singleton, List.flatMap_singleton, Nat.zero_lt_one, if_true]
    omega
  have hzero : (encodeList (.of 3 .bytes) writeBytes Block.zero.evidence).length = 0 := rfl
  simp only [wideBlock, Block.encodeTo, List.length_append, hevidence, hzero]
  omega

/-- The encoding fits into two parts, but not into one. -/
theorem length_wideBlock_bounds : blockPartSize < wideBlock.encodeTo.length ∧
    wideBlock.encodeTo.length ≤ 2 * blockPartSize := by
  have hzero : Block.zero.encodeTo.length ≤ 100 := by decide +kernel
  rw [length_wideBlock]
  unfold blockPartSize
  omega

theorem partCount_wideBlock : partCount wideBlock.encodeTo = 2 := by
  obtain ⟨hlow, hhigh⟩ := length_wideBlock_bounds
  rw [partCount]
  generalize wideBlock.encodeTo.length = length at hlow hhigh
  unfold blockPartSize at *
  omega

/-- A block in two parts, of which the second comes first and then again. -/
theorem block_transfer_wide :
    wideBlock.encodeTo.length ≤ maxBlockParts * blockPartSize ∧
    ∃ ps recv, blockPartsFromBlock (some wideBlock) = .ok ps ∧ ps.total = 2 ∧
      newPartSetFromHeader ps.header = .ok recv ∧
      blockFromParts (recv.addParts [ps.getPart 1]) = .error (.parts .notComplete) ∧
      blockFromParts (recv.addParts [ps.getPart 1, ps.getPart 0, ps.getPart 1]) =
        .ok wideBlock := by
  have hshort : wideBlock.encodeTo.length ≤ maxBlockParts * blockPartSize :=
    length_wideBlock_bounds.2.trans (by decide)
  obtain ⟨ps, recv, hps, htotal, hrecv, hrun⟩ := (block_transfer wideBlock).2 hshort
  rw [partCount_wideBlock] at htotal
  refine ⟨hshort, ps, recv, hps, htotal, hrecv, (hrun [1] ?_).2 ⟨0, ?_, ?_⟩,
    (hrun [1, 0, 1] ?_).1 ?_⟩
  · simp [htotal]
  · simp [htotal]
  · simp
  · simp [htotal]
  · rw [htotal]
    decide

end

end Leaderberry
