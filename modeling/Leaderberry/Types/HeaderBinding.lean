import Leaderberry.Types.Reassembly

/-!
# A header determines the data

A `BlockPartSetHeader` is the number of parts and the root of the tree over their hashes.
Two headers that are `Equals` belong to the same data, as far as SHA-256 does not collide on
what is hashed for the two (`header_determines_data`).

The number of parts is needed. Leaves and inner nodes are hashed alike, and an odd node is
paired with itself, so a root alone does not tell how many leaves there are.
-/

namespace Leaderberry

open MerkleTree

/-- `HashEqual`. -/
def hashEqual (a b : Hash) : Bool := a.data == b.data

/-- `BlockPartSetHeader.Equals`. -/
def BlockPartSetHeader.equals (h other : BlockPartSetHeader) : Bool :=
  h.total == other.total && hashEqual h.hash other.hash

theorem BlockPartSetHeader.equals_iff {h other : BlockPartSetHeader} :
    h.equals other = true ↔ h = other := by
  obtain ⟨total, hash⟩ := h
  obtain ⟨total', hash'⟩ := other
  rw [equals, hashEqual, Bool.and_eq_true, beq_iff_eq, beq_iff_eq, mk.injEq]
  exact and_congr_right fun _ => Hash.data_inj

section binding

variable [Externals] {d₁ d₂ : Bytes}

/-- SHA-256 does not collide between what is hashed to split the one and the other. -/
def NoSplitCollision (d₁ d₂ : Bytes) : Prop :=
  ∀ x ∈ splitInputs d₁, ∀ y ∈ splitInputs d₂, Externals.sha256 x = Externals.sha256 y → x = y

/-- Nodes have a fixed size, so two pairs that are hashed alike are the same. -/
theorem NoSplitCollision.pair_eq (h : NoSplitCollision d₁ d₂)
    (hsize : ∀ m, (Externals.sha256 m).length = hashSize) {q q' : Bytes × Bytes}
    (hq : q ∈ treePairs hashPair (Nat.clog 2 (partCount d₁)) (leaves d₁))
    (hq' : q' ∈ treePairs hashPair (Nat.clog 2 (partCount d₂)) (leaves d₂))
    (heq : hashPair q.1 q.2 = hashPair q'.1 q'.2) : q = q' := by
  have hcomb (a b : Bytes) : (hashPair a b).length = hashSize := hsize _
  have happend : q.1 ++ q.2 = q'.1 ++ q'.2 :=
    h _ (List.mem_append_right _ (List.mem_map_of_mem hq)) _
      (List.mem_append_right _ (List.mem_map_of_mem hq')) heq
  have hleft := (forall_treePairs (P := fun x => x.length = hashSize) hcomb
    (forall_leaves hsize) q hq).1
  have hleft' := (forall_treePairs (P := fun x => x.length = hashSize) hcomb
    (forall_leaves hsize) q' hq').1
  obtain ⟨h₁, h₂⟩ := List.append_inj happend (hleft.trans hleft'.symm)
  exact Prod.ext h₁ h₂

/-- Equal leaves are hashes of equal parts. -/
theorem NoSplitCollision.parts_eq (h : NoSplitCollision d₁ d₂) (hleaves : leaves d₁ = leaves d₂)
    (hcount : partCount d₁ = partCount d₂) {i : Nat} (hi : i < partCount d₁) :
    partBytes d₁ i = partBytes d₂ i := by
  have hi' : i < partCount d₂ := hcount ▸ hi
  have hhash : some (Externals.sha256 (partBytes d₁ i)) =
      some (Externals.sha256 (partBytes d₂ i)) := by
    rw [← leaves_getElem? hi, ← leaves_getElem? hi', hleaves]
  exact h _ (List.mem_append_left _ (List.mem_map_of_mem (List.mem_range.mpr hi))) _
    (List.mem_append_left _ (List.mem_map_of_mem (List.mem_range.mpr hi'))) (Option.some.inj hhash)

/-- **A header determines the data.** If `NewPartSetFromData` accepts two byte strings and the
headers are `Equals`, the byte strings are the same. -/
theorem header_determines_data {ps₁ ps₂ : PartSet}
    (hsize : ∀ m, (Externals.sha256 m).length = hashSize) (hcollision : NoSplitCollision d₁ d₂)
    (hps₁ : newPartSetFromData d₁ = .ok ps₁) (hps₂ : newPartSetFromData d₂ = .ok ps₂)
    (hequals : ps₁.header.equals ps₂.header = true) : d₁ = d₂ := by
  obtain ⟨h₁, r₁, hsplit₁⟩ := isSplit_of_ok hps₁
  obtain ⟨h₂, r₂, hsplit₂⟩ := isSplit_of_ok hps₂
  obtain ⟨htotal, hhash⟩ :=
    (BlockPartSetHeader.mk.injEq ..).mp (BlockPartSetHeader.equals_iff.mp hequals)
  have hcount : partCount d₁ = partCount d₂ := by
    rw [← hsplit₁.total, ← hsplit₂.total]
    exact htotal
  obtain rfl : r₁ = r₂ := by
    rw [hsplit₁.hash, hsplit₂.hash] at hhash
    exact congrArg Hash.data hhash
  -- both trees are as high as their widths say
  have hroot₁ := hsplit₁.root
  have hroot₂ := hsplit₂.root
  rw [hroot₁.height_eq, length_leaves] at hroot₁
  rw [hroot₂.height_eq, length_leaves] at hroot₂
  have hleaves : leaves d₁ = leaves d₂ :=
    hroot₁.leaves_eq hroot₂ (fun q hq q' hq' => hcollision.pair_eq hsize hq hq')
      (by rw [length_leaves, length_leaves, hcount])
  calc d₁ = (List.range (partCount d₁)).flatMap (partBytes d₁) :=
        (flatMap_partBytes_partCount d₁).symm
    _ = (List.range (partCount d₁)).flatMap (partBytes d₂) :=
        List.flatMap_congr fun i hi =>
          hcollision.parts_eq hleaves hcount (List.mem_range.mp hi)
    _ = (List.range (partCount d₂)).flatMap (partBytes d₂) := by rw [hcount]
    _ = d₂ := flatMap_partBytes_partCount d₂

end binding

section twoParts

attribute [local instance] lengthDigest

/-- Two parts: no hash collides, and the header is `Equals` to itself. -/
theorem header_determines_data_twoParts : ∃ ps, newPartSetFromData twoParts = .ok ps ∧
    NoSplitCollision twoParts twoParts ∧ ps.header.equals ps.header = true ∧
      twoParts = twoParts := by
  obtain ⟨ps, -, hps, -⟩ := exists_split_twoParts
  have hcollision : NoSplitCollision twoParts twoParts :=
    fun x hx y hy => eq_of_digest_eq_twoParts hx hy
  have hequals := BlockPartSetHeader.equals_iff.mpr (rfl : ps.header = ps.header)
  exact ⟨ps, hps, hcollision, hequals,
    header_determines_data (fun m => length_fitTo ..) hcollision hps hps hequals⟩

end twoParts

end Leaderberry
