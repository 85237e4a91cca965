import Leaderberry.Lib.MerkleTree
import Leaderberry.Types.Basic

/-!
# Block parts (`types/block_parts.go`)

A `PartSet` splits data into parts of 64 KiB under a Merkle root and collects such parts
again. Every part travels with its Merkle path.

- `newPartSetFromData`, `newPartSetFromHeader`, `PartSet.addPart`, `PartSet.getData`: the
  life of a part set.
- `buildMerkleTreeWithProofs` and `computeMerkleRoot` build the tree independently of each
  other; `verifyMerkleProof` climbs it. All three are instances of `MerkleTree` at
  `hashPair` (`buildMerkleTreeWithProofs_spec`, `computeMerkleRoot_spec`,
  `verifyMerkleProof_iff`).
- `uint16` counters are `Nat`: `MaxBlockParts` keeps them far from the bound. Slices are
  values, so an `append` never writes into the memory of another slice.
- `MustNewHash` only ever gets a `[32]byte` digest and cannot panic; it is `Hash.mk`.
-/

namespace Leaderberry

/-- `BlockPartSize`. -/
def blockPartSize : Nat := 65536

/-- `MaxBlockParts`. -/
def maxBlockParts : Nat := 1024

structure BlockPart where
  index : Nat
  bytes : Bytes
  proofPath : List Hash
  proofRoot : Hash
deriving DecidableEq

structure BlockPartSetHeader where
  total : Nat
  hash : Hash
deriving DecidableEq

/-- `PartSet`. `partsBits` is the bitmap of the parts that are there; `data` is nil until
they are complete. -/
structure PartSet where
  total : Nat
  hash : Hash
  parts : List (Option BlockPart)
  partsBits : List (BitVec 64)
  partsCount : Nat
  data : Option Bytes
deriving DecidableEq

/-- Errors of part sets, with the data their messages carry. -/
inductive PartSetError where
  | emptyData
  | tooManyParts (count : Nat)
  | nilPart
  | invalidIndex (index total : Nat)
  | partSizeTooLarge (size : Nat)
  | alreadyHas
  | invalidProof
  | hashMismatch (expected computed : Hash)
  | notComplete
  | assemblyFailed
deriving DecidableEq

/-- `HashEmpty`. -/
def hashEmpty : Hash := ⟨List.replicate hashSize 0⟩

/-! ## Merkle trees of hashes -/

section merkle

variable [Externals]

/-- The hash of two neighbours. -/
def hashPair (left right : Bytes) : Bytes := Externals.sha256 (left ++ right)

/-- The loop of `computeMerkleRoot`, one pass a level. -/
def merkleLevels : Nat → List Bytes → List Bytes
  | 0, hashes => hashes
  | fuel + 1, hashes =>
    if 1 < hashes.length then merkleLevels fuel (MerkleTree.levelUp hashPair hashes) else hashes

/-- `computeMerkleRoot`. -/
def computeMerkleRoot (hashes : List Bytes) : Hash :=
  match hashes with
  | [] => hashEmpty
  | [hash] => ⟨hash⟩
  | _ => ⟨(merkleLevels hashes.length hashes).headD []⟩

/-- `sibling` is appended to the proofs of all given leaves. -/
def appendToProofs (sibling : Bytes) (indices : List Nat) (proofs : List (List Hash)) :
    List (List Hash) :=
  indices.foldl (fun proofs idx => proofs.modify idx (· ++ [⟨sibling⟩])) proofs

/-- One pass of `buildMerkleTreeWithProofs`. A level holds its nodes (`currentLevel`), each
with the leaves below it (`indices`). -/
def buildLevel : List (Bytes × List Nat) → List (List Hash) →
    List (Bytes × List Nat) × List (List Hash)
  | (left, leftIndices) :: (right, rightIndices) :: rest, proofs =>
    let next := buildLevel rest
      (appendToProofs left rightIndices (appendToProofs right leftIndices proofs))
    ((hashPair left right, leftIndices ++ rightIndices) :: next.1, next.2)
  | [(left, leftIndices)], proofs =>
    -- The odd one out is paired with itself.
    ([(hashPair left left, leftIndices)], appendToProofs left leftIndices proofs)
  | [], proofs => ([], proofs)

/-- The loop of `buildMerkleTreeWithProofs`. -/
def buildLevels : Nat → List (Bytes × List Nat) → List (List Hash) →
    List (Bytes × List Nat) × List (List Hash)
  | 0, level, proofs => (level, proofs)
  | fuel + 1, level, proofs =>
    if 1 < level.length then
      buildLevels fuel (buildLevel level proofs).1 (buildLevel level proofs).2
    else (level, proofs)

/-- `buildMerkleTreeWithProofs`: the root, and the proof path of every leaf. -/
def buildMerkleTreeWithProofs (leafHashes : List Hash) : Hash × List (List Hash) :=
  match leafHashes with
  | [] => (hashEmpty, [])
  | [hash] => (hash, [[]])
  | _ =>
    let built := buildLevels leafHashes.length
      (leafHashes.zipIdx.map fun leaf => (leaf.1.data, [leaf.2]))
      (List.replicate leafHashes.length [])
    (⟨(built.1.map Prod.fst).headD []⟩, built.2)

/-- The loop of `verifyMerkleProof`. -/
def climbProof : Nat → Hash → List Hash → Hash
  | _, current, [] => current
  | idx, current, sibling :: rest =>
    let combined :=
      if idx % 2 = 0 then current.data ++ sibling.data else sibling.data ++ current.data
    climbProof (idx / 2) (hashBytes combined) rest

/-- `verifyMerkleProof`. -/
def verifyMerkleProof (partHash : Hash) (index : Nat) (proofPath : List Hash) (root : Hash) :
    Bool :=
  if proofPath.length = 0 then partHash == root
  else climbProof index partHash proofPath == root

end merkle

/-! ## The bitmap -/

/-- Marks a part as present. -/
def setBit (bits : List (BitVec 64)) (index : Nat) : List (BitVec 64) :=
  bits.modify (index / 64) fun word => word ||| 1#64 <<< (index % 64)

/-- The bit of a part. -/
def hasBit (bits : List (BitVec 64)) (index : Nat) : Bool :=
  bits.getD (index / 64) 0 &&& 1#64 <<< (index % 64) != 0

/-- A bitmap for `total` parts, all of them missing. -/
def emptyBits (total : Nat) : List (BitVec 64) := List.replicate ((total + 63) / 64) 0

/-! ## Part sets -/

/-- The bytes of part `i`: `data[start:end]`. -/
def partBytes (data : Bytes) (i : Nat) : Bytes :=
  let start := i * blockPartSize
  (data.take (min (start + blockPartSize) data.length)).drop start

/-- The number of parts of `data`. -/
def partCount (data : Bytes) : Nat := (data.length + blockPartSize - 1) / blockPartSize

/-- `NewPartSetFromHeader`. -/
def newPartSetFromHeader (header : BlockPartSetHeader) : Except PartSetError PartSet :=
  if maxBlockParts < header.total then .error (.tooManyParts header.total)
  else .ok
    { total := header.total
      hash := header.hash
      parts := List.replicate header.total none
      partsBits := emptyBits header.total
      partsCount := 0
      data := none }

section

variable [Externals]

/-- The hashes of the parts of `data`. -/
def leafHashes (data : Bytes) : List Hash :=
  (List.range (partCount data)).map fun i => hashBytes (partBytes data i)

/-- The part set `NewPartSetFromData` fills: every part with its path, and all bits set. -/
def fullPartSet (data : Bytes) (rootHash : Hash) (proofPaths : List (List Hash)) : PartSet where
  total := partCount data
  hash := rootHash
  parts := (List.range (partCount data)).map fun i => some
    { index := i, bytes := partBytes data i, proofPath := proofPaths.getD i [],
      proofRoot := rootHash }
  partsBits := (List.range (partCount data)).foldl setBit (emptyBits (partCount data))
  partsCount := partCount data
  data := some data

/-- `NewPartSetFromData`. -/
def newPartSetFromData (data : Bytes) : Except PartSetError PartSet :=
  if data.length = 0 then .error .emptyData
  else if maxBlockParts < partCount data then .error (.tooManyParts (partCount data))
  else
    match buildMerkleTreeWithProofs (leafHashes data) with
    | (rootHash, proofPaths) => .ok (fullPartSet data rootHash proofPaths)

namespace PartSet

/-- `Header`. -/
def header (ps : PartSet) : BlockPartSetHeader := ⟨ps.total, ps.hash⟩

/-- `HasPart`. -/
def hasPart (ps : PartSet) (index : Nat) : Bool :=
  if ps.total ≤ index then false else hasBit ps.partsBits index

/-- `GetPart`. -/
def getPart (ps : PartSet) (index : Nat) : Option BlockPart :=
  if ps.total ≤ index then none else ps.parts.getD index none

/-- The bytes that `assembleData` concatenates. It only runs once no part is missing. -/
def collected (ps : PartSet) : List Bytes :=
  ps.parts.map fun part => (part.map BlockPart.bytes).getD []

/-- `assembleData`. -/
def assembleData (ps : PartSet) : PartSet × Option PartSetError :=
  let computedHash := computeMerkleRoot (ps.collected.map Externals.sha256)
  if computedHash ≠ ps.hash then
    ({ ps with data := none }, some (.hashMismatch ps.hash computedHash))
  else ({ ps with data := some ps.collected.flatten }, none)

/-- The writes of `AddPart`. -/
def store (part : BlockPart) (ps : PartSet) : PartSet :=
  { ps with
    parts := ps.parts.set part.index (some part)
    partsBits := setBit ps.partsBits part.index
    partsCount := ps.partsCount + 1 }

/-- The check of `AddPart`: the hash of the bytes leads to the root. -/
def verifies (ps : PartSet) (part : BlockPart) : Bool :=
  verifyMerkleProof (hashBytes part.bytes) part.index part.proofPath ps.hash

/-- `AddPart`. A part stays stored when the assembly that follows it fails. -/
def addPart (part : Option BlockPart) (ps : PartSet) : PartSet × Option PartSetError :=
  match part with
  | none => (ps, some .nilPart)
  | some part =>
    if ps.total ≤ part.index then (ps, some (.invalidIndex part.index ps.total))
    else if blockPartSize < part.bytes.length then
      (ps, some (.partSizeTooLarge part.bytes.length))
    else if ps.hasPart part.index then (ps, some .alreadyHas)
    else if !ps.verifies part then (ps, some .invalidProof)
    else
      let ps := ps.store part
      if ps.partsCount = ps.total then ps.assembleData else (ps, none)

/-- A sequence of `AddPart` calls. -/
def addParts (ps : PartSet) (parts : List (Option BlockPart)) : PartSet :=
  parts.foldl (fun ps part => (ps.addPart part).1) ps

/-- `GetData`. -/
def getData (ps : PartSet) : Except PartSetError Bytes :=
  if ps.partsCount ≠ ps.total then .error .notComplete
  else
    match ps.data with
    | none => .error .assemblyFailed
    | some data => .ok data

/-- `MissingParts`. -/
def missingParts (ps : PartSet) : List Nat :=
  (List.range ps.total).filter fun i => !ps.hasPart i

end PartSet

end

/-! ## The tree the code builds -/

section tree

variable [Externals] {h : Nat} {r : Bytes} {l : List Bytes} {i : Nat}

open MerkleTree

theorem merkleLevels_eq (hroot : IsRoot hashPair h l r) {fuel : Nat} (hfuel : h ≤ fuel) :
    merkleLevels fuel l = [r] := by
  induction hroot generalizing fuel with
  | single x => cases fuel <;> simp [merkleLevels]
  | level two up ih =>
    obtain ⟨fuel, rfl⟩ : ∃ k, fuel = k + 1 := ⟨fuel - 1, by omega⟩
    rw [merkleLevels, if_pos (Nat.lt_of_succ_le two)]
    exact ih (Nat.le_of_succ_le_succ hfuel)

/-- `computeMerkleRoot` computes the root. -/
theorem computeMerkleRoot_spec (hroot : IsRoot hashPair h l r) :
    computeMerkleRoot l = ⟨r⟩ := by
  have hlevels := merkleLevels_eq hroot hroot.height_lt.le
  match l, hroot.ne_nil with
  | [x], _ =>
    cases hroot with
    | single => rfl
    | level two => simp at two
  | a :: b :: rest, _ =>
    show Hash.mk _ = _
    rw [hlevels, List.headD_cons]

/-- The root of a list of hashes is the one that is computed. -/
theorem computeMerkleRoot_eq_iff (hl : l ≠ []) (root : Hash) :
    computeMerkleRoot l = root ↔ ∃ h, IsRoot hashPair h l root.data := by
  constructor
  · rintro rfl
    obtain ⟨h, r, hroot⟩ := exists_isRoot hashPair l hl
    rw [computeMerkleRoot_spec hroot]
    exact ⟨h, hroot⟩
  · rintro ⟨h, hroot⟩
    exact computeMerkleRoot_spec hroot

omit [Externals] in
theorem appendToProofs_getElem? (sibling : Bytes) (indices : List Nat)
    (proofs : List (List Hash)) (i : Nat) :
    (appendToProofs sibling indices proofs)[i]? =
      proofs[i]?.map (· ++ List.replicate (indices.count i) ⟨sibling⟩) := by
  induction indices generalizing proofs with
  | nil => simp [appendToProofs]
  | cons idx rest ih =>
    have hcons : appendToProofs sibling (idx :: rest) proofs =
        appendToProofs sibling rest (proofs.modify idx (· ++ [⟨sibling⟩])) := rfl
    rw [hcons, ih, List.getElem?_modify, List.count_cons]
    by_cases heq : idx = i
    · subst heq
      cases proofs[idx]? <;> simp [List.replicate_succ]
    · cases proofs[i]? <;> simp [heq]

/-- How often leaf `i` is listed below position `j` of a level. -/
def below (level : List (Bytes × List Nat)) (j i : Nat) : Nat :=
  ((level[j]?.map Prod.snd).getD []).count i

/-- Leaf `i` is listed once, below position `p`. -/
def Sits (level : List (Bytes × List Nat)) (i p : Nat) : Prop :=
  ∀ j, below level j i = if j = p then 1 else 0

theorem buildLevel_nodes (level : List (Bytes × List Nat)) (proofs : List (List Hash)) :
    (buildLevel level proofs).1.map Prod.fst = levelUp hashPair (level.map Prod.fst) := by
  induction level, proofs using buildLevel.induct with
  | case1 left leftIndices right rightIndices rest proofs ih => simp [buildLevel, levelUp, ih]
  | case2 left leftIndices proofs => simp [buildLevel, levelUp]
  | case3 proofs => simp [buildLevel, levelUp]

theorem buildLevel_below (level : List (Bytes × List Nat)) (proofs : List (List Hash))
    (j i : Nat) :
    below (buildLevel level proofs).1 j i = below level (2 * j) i + below level (2 * j + 1) i := by
  induction level, proofs using buildLevel.induct generalizing j with
  | case1 left leftIndices right rightIndices rest proofs ih =>
    match j with
    | 0 => simp [buildLevel, below]
    | j + 1 => exact ih j
  | case2 left leftIndices proofs =>
    match j with
    | 0 => simp [buildLevel, below]
    | j + 1 => simp [buildLevel, below, show 2 * (j + 1) = 2 * j + 1 + 1 by omega]
  | case3 proofs => simp [buildLevel, below]

theorem Sits.buildLevel {level : List (Bytes × List Nat)} {p : Nat} (hsits : Sits level i p)
    (proofs : List (List Hash)) : Sits (buildLevel level proofs).1 i (p / 2) := by
  intro j
  rw [buildLevel_below, hsits, hsits]
  split_ifs <;> omega

/-- The proof of a leaf that is not below a level is not touched. -/
theorem buildLevel_proofs_of_absent (level : List (Bytes × List Nat)) (proofs : List (List Hash))
    (habsent : ∀ j, below level j i = 0) :
    (Leaderberry.buildLevel level proofs).2[i]? = proofs[i]? := by
  induction level, proofs using buildLevel.induct with
  | case1 left leftIndices right rightIndices rest proofs ih =>
    have hleft : leftIndices.count i = 0 := habsent 0
    have hright : rightIndices.count i = 0 := habsent 1
    simp only [Leaderberry.buildLevel]
    rw [ih fun j => habsent (j + 2), appendToProofs_getElem?, appendToProofs_getElem?, hleft,
      hright]
    simp
  | case2 left leftIndices proofs =>
    have hleft : leftIndices.count i = 0 := habsent 0
    simp only [Leaderberry.buildLevel]
    rw [appendToProofs_getElem?, hleft]
    simp
  | case3 proofs => rfl

/-- The proof of a leaf grows by the sibling of the node it is below. -/
theorem buildLevel_proofs (level : List (Bytes × List Nat)) (proofs : List (List Hash)) {p : Nat}
    {s : Bytes} (hsits : Sits level i p) (hs : (siblings (level.map Prod.fst))[p]? = some s) :
    (Leaderberry.buildLevel level proofs).2[i]? = proofs[i]?.map (· ++ [⟨s⟩]) := by
  induction level, proofs using buildLevel.induct generalizing p with
  | case1 left leftIndices right rightIndices rest proofs ih =>
    have hleft := hsits 0
    have hright := hsits 1
    simp only [below, List.getElem?_cons_zero, List.getElem?_cons_succ, Option.map_some,
      Option.getD_some] at hleft hright
    have hrest (j : Nat) : below rest j i = if j + 2 = p then 1 else 0 := hsits (j + 2)
    simp only [Leaderberry.buildLevel]
    match p with
    | 0 | 1 =>
      rw [buildLevel_proofs_of_absent rest _ fun j => by simp [hrest], appendToProofs_getElem?,
        appendToProofs_getElem?, hleft, hright]
      obtain rfl := Option.some.inj hs
      cases proofs[i]? <;> simp
    | p + 2 =>
      rw [ih (fun j => by simp [hrest]) hs, appendToProofs_getElem?, appendToProofs_getElem?,
        hleft, hright]
      simp
  | case2 left leftIndices proofs =>
    match p with
    | 0 =>
      have hleft : leftIndices.count i = 1 := hsits 0
      obtain rfl := Option.some.inj hs
      simp only [Leaderberry.buildLevel]
      rw [appendToProofs_getElem?, hleft]
      rfl
    | p + 1 => simp [siblings] at hs
  | case3 proofs => simp [siblings] at hs

/-- All passes: one node is left, and every proof has grown by the path of its leaf. -/
theorem buildLevels_spec {level : List (Bytes × List Nat)} (hroot : IsRoot hashPair h l r)
    (hl : level.map Prod.fst = l) (proofs : List (List Hash)) {fuel : Nat} (hfuel : h ≤ fuel) :
    (buildLevels fuel level proofs).1.map Prod.fst = [r] ∧
      ∀ i p, Sits level i p → p < level.length →
        (buildLevels fuel level proofs).2[i]? =
          proofs[i]?.map (· ++ (path hashPair h l p).map Hash.mk) := by
  induction hroot generalizing level proofs fuel with
  | single x =>
    have hlen : level.length = 1 := by simpa using congrArg List.length hl
    have hstop : buildLevels fuel level proofs = (level, proofs) := by
      cases fuel <;> simp [buildLevels, hlen]
    rw [hstop]
    exact ⟨hl, fun i p _ _ => by simp [path]⟩
  | @level h l r two up ih =>
    obtain ⟨fuel, rfl⟩ : ∃ k, fuel = k + 1 := ⟨fuel - 1, by omega⟩
    subst hl
    rw [List.length_map] at two
    rw [buildLevels, if_pos (Nat.lt_of_succ_le two)]
    obtain ⟨hnode, hproofs⟩ :=
      ih (buildLevel_nodes level proofs) (buildLevel level proofs).2
        (Nat.le_of_succ_le_succ hfuel)
    refine ⟨hnode, fun i p hsits hp => ?_⟩
    obtain ⟨s, hs⟩ := exists_sibling (l := level.map Prod.fst) (j := p) (by simpa using hp)
    have hup : p / 2 < (Leaderberry.buildLevel level proofs).1.length := by
      have hlen := congrArg List.length (buildLevel_nodes level proofs)
      rw [List.length_map, length_levelUp, List.length_map] at hlen
      omega
    rw [hproofs i (p / 2) (hsits.buildLevel proofs) hup, buildLevel_proofs level proofs hsits hs,
      path, hs]
    cases proofs[i]? <;> simp

omit [Externals] in
/-- At the bottom every leaf is below its own position. -/
theorem sits_leaves (leaves : List Hash) (hi : i < leaves.length) :
    Sits (leaves.zipIdx.map fun leaf => (leaf.1.data, [leaf.2])) i i := by
  intro j
  rw [below, List.getElem?_map, List.getElem?_zipIdx]
  rcases Nat.lt_or_ge j leaves.length with hj | hj
  · rw [List.getElem?_eq_getElem hj]
    simp [List.count_cons]
  · rw [List.getElem?_eq_none hj, if_neg (by omega)]
    rfl

/-- **`buildMerkleTreeWithProofs` returns the root and the path of every leaf.** -/
theorem buildMerkleTreeWithProofs_spec {leaves : List Hash}
    (hroot : IsRoot hashPair h (leaves.map Hash.data) r) :
    (buildMerkleTreeWithProofs leaves).1 = ⟨r⟩ ∧
      ∀ i < leaves.length, (buildMerkleTreeWithProofs leaves).2[i]? =
        some ((path hashPair h (leaves.map Hash.data) i).map Hash.mk) := by
  have hnil : leaves ≠ [] := fun hnil => hroot.ne_nil (by rw [hnil]; rfl)
  match leaves, hnil with
  | [x], _ =>
    cases hroot with
    | single =>
      refine ⟨rfl, fun i hi => ?_⟩
      obtain rfl : i = 0 := by simpa using hi
      rfl
    | level two => simp at two
  | a :: b :: rest, _ =>
    have hnodes : ((a :: b :: rest).zipIdx.map fun leaf => (leaf.1.data, [leaf.2])).map Prod.fst
        = (a :: b :: rest).map Hash.data := by
      rw [List.map_map]
      conv_rhs => rw [← List.zipIdx_map_fst 0 (a :: b :: rest), List.map_map]
      rfl
    have hheight : h ≤ (a :: b :: rest).length := by simpa using hroot.height_lt.le
    obtain ⟨hnode, hproofs⟩ :=
      buildLevels_spec hroot hnodes (List.replicate (a :: b :: rest).length []) hheight
    refine ⟨?_, fun i hi => ?_⟩
    · show Hash.mk _ = _
      rw [hnode, List.headD_cons]
    · show (buildLevels _ _ _).2[i]? = _
      rw [hproofs i i (sits_leaves _ hi) (by simpa using hi), List.getElem?_replicate, if_pos hi,
        Option.map_some, List.nil_append]

omit [Externals] in
theorem Hash.data_inj {a b : Hash} : a.data = b.data ↔ a = b := by
  cases a
  cases b
  simp

theorem climbProof_data (idx : Nat) (current : Hash) (proof : List Hash) :
    (climbProof idx current proof).data =
      climb hashPair idx current.data (proof.map Hash.data) := by
  induction proof generalizing idx current with
  | nil => rfl
  | cons sibling rest ih =>
    rw [climbProof, ih, List.map_cons, climb, join, hashBytes]
    congr 1
    split <;> rfl

/-- **`verifyMerkleProof` accepts what climbs to the root.** -/
theorem verifyMerkleProof_iff (partHash : Hash) (index : Nat) (proofPath : List Hash)
    (root : Hash) :
    verifyMerkleProof partHash index proofPath root ↔
      climb hashPair index partHash.data (proofPath.map Hash.data) = root.data := by
  rw [← climbProof_data, Hash.data_inj, verifyMerkleProof]
  cases proofPath <;> simp [climbProof]

/-- **The builders agree and the proofs verify.** Both give the same root, and the verifier,
which only halves the index, climbs the path that was collected level by level. -/
theorem merkle_proofs_verify (leaves : List Hash) (hleaves : leaves ≠ []) :
    (buildMerkleTreeWithProofs leaves).1 = computeMerkleRoot (leaves.map Hash.data) ∧
      ∀ i < 2 ^ 16, ∀ leaf, leaves[i]? = some leaf →
        ∃ proof, (buildMerkleTreeWithProofs leaves).2[i]? = some proof ∧
          verifyMerkleProof leaf i proof (buildMerkleTreeWithProofs leaves).1 = true := by
  obtain ⟨h, r, hroot⟩ := exists_isRoot hashPair (leaves.map Hash.data) (by simpa using hleaves)
  obtain ⟨hbuilt, hproofs⟩ := buildMerkleTreeWithProofs_spec hroot
  refine ⟨hbuilt.trans (computeMerkleRoot_spec hroot).symm, fun i _ leaf hleaf => ?_⟩
  obtain ⟨hi, -⟩ := List.getElem?_eq_some_iff.mp hleaf
  refine ⟨_, hproofs i hi, ?_⟩
  have hdata : (leaves.map Hash.data)[i]? = some leaf.data := by
    rw [List.getElem?_map, hleaf, Option.map_some]
  have hpath : ((path hashPair h (leaves.map Hash.data) i).map Hash.mk).map Hash.data =
      path hashPair h (leaves.map Hash.data) i := by
    rw [List.map_map]
    exact List.map_id _
  rw [hbuilt, verifyMerkleProof_iff, hpath]
  exact hroot.climb_path hdata

end tree

section

attribute [local instance] transparent

/-- Three leaves: the last one is paired with itself. -/
theorem merkle_proofs_verify_three :
    ∃ proof, (buildMerkleTreeWithProofs [hashBytes [1], hashBytes [2], hashBytes [3]]).2[2]? =
        some proof ∧
      verifyMerkleProof (hashBytes [3]) 2 proof
        (buildMerkleTreeWithProofs [hashBytes [1], hashBytes [2], hashBytes [3]]).1 = true :=
  (merkle_proofs_verify [hashBytes [1], hashBytes [2], hashBytes [3]]
    (List.cons_ne_nil _ _)).2 2 (by decide) (hashBytes [3]) rfl

end

/-! ## One call of `AddPart` -/

section call

variable [Externals] {ps : PartSet} {p : BlockPart}

/-- The checks of `AddPart` pass. -/
structure Admits (ps : PartSet) (p : BlockPart) : Prop where
  index : p.index < ps.total
  size : p.bytes.length ≤ blockPartSize
  new : ps.hasPart p.index = false
  proof : ps.verifies p = true

/-- A part that does not pass is refused and nothing changes. -/
theorem addPart_refused (h : ¬ Admits ps p) : ∃ e, ps.addPart (some p) = (ps, some e) := by
  unfold PartSet.addPart
  dsimp only
  split
  · exact ⟨_, rfl⟩
  split
  · exact ⟨_, rfl⟩
  split
  · exact ⟨_, rfl⟩
  split
  · exact ⟨_, rfl⟩
  · rename_i hindex hsize hnew hproof
    exact absurd ⟨Nat.not_le.mp hindex, Nat.not_lt.mp hsize, Bool.not_eq_true _ ▸ hnew,
      by simpa using hproof⟩ h

/-- A part that passes is stored, and the last one is followed by the assembly. -/
theorem addPart_admitted (h : Admits ps p) : ps.addPart (some p) =
    if ps.partsCount + 1 = ps.total then (ps.store p).assembleData else (ps.store p, none) := by
  unfold PartSet.addPart
  dsimp only
  rw [if_neg (Nat.not_le.mpr h.index), if_neg (Nat.not_lt.mpr h.size),
    if_neg (by rw [h.new]; exact Bool.false_ne_true), if_neg (by rw [h.proof]; decide)]
  rfl

/-- The data after the assembly. -/
def PartSet.assembled (ps : PartSet) : Option Bytes :=
  if computeMerkleRoot (ps.collected.map Externals.sha256) = ps.hash then
    some ps.collected.flatten
  else none

theorem assembleData_fst : ps.assembleData.1 = { ps with data := ps.assembled } := by
  rw [PartSet.assembleData, PartSet.assembled, ite_not]
  split <;> rfl

/-- Whatever the call returns, a part that passes is stored. -/
theorem addPart_admitted_stored (h : Admits ps p) : (ps.addPart (some p)).1 =
    { ps.store p with
      data := if ps.partsCount + 1 = ps.total then (ps.store p).assembled else ps.data } := by
  rw [addPart_admitted h]
  split
  · rw [assembleData_fst]
  · rfl

/-- What a call can do: nothing, or store a part that passes. -/
theorem PartSet.addPart_cases (part : Option BlockPart) (ps : PartSet) :
    (ps.addPart part).1 = ps ∨
      ∃ p data, part = some p ∧ ps.verifies p ∧
        (ps.addPart part).1 = { ps.store p with data } := by
  cases part with
  | none => exact .inl rfl
  | some p =>
    by_cases hadmits : Admits ps p
    · exact .inr ⟨p, _, rfl, hadmits.proof, addPart_admitted_stored hadmits⟩
    · obtain ⟨e, hrefused⟩ := addPart_refused hadmits
      exact .inl (by rw [hrefused])

theorem header_addPart (part : Option BlockPart) : (ps.addPart part).1.header = ps.header := by
  rcases PartSet.addPart_cases part ps with hsame | ⟨q, data, -, -, hstore⟩
  · rw [hsame]
  · rw [hstore]
    rfl

theorem header_addParts (parts : List (Option BlockPart)) :
    (ps.addParts parts).header = ps.header := by
  induction parts generalizing ps with
  | nil => rfl
  | cons part rest ih => exact ih.trans (header_addPart part)

end call

/-! ## Bits and bytes -/

/-- The word with a single bit. -/
theorem getLsbD_single {i k : Nat} (hi : i < 64) : (1#64 <<< k).getLsbD i = decide (i = k) := by
  rw [Bool.eq_iff_iff]
  simp only [BitVec.getLsbD_shiftLeft, BitVec.getLsbD_one, Bool.and_eq_true, Bool.not_eq_true',
    decide_eq_true_eq, decide_eq_false_iff_not]
  omega

theorem and_shift_ne_zero (word : BitVec 64) {k : Nat} (hk : k < 64) :
    (word &&& 1#64 <<< k != 0) = word.getLsbD k := by
  have hmask {i : Nat} (hi : i < 64) :
      (word &&& 1#64 <<< k).getLsbD i = (word.getLsbD i && decide (i = k)) := by
    rw [BitVec.getLsbD_and, getLsbD_single hi]
  cases hbit : word.getLsbD k with
  | true =>
    refine bne_iff_ne.mpr fun hzero => ?_
    have hk' := hmask hk
    rw [hzero, hbit] at hk'
    simp at hk'
  | false =>
    have hzero : word &&& 1#64 <<< k = 0 := by
      refine BitVec.eq_of_getLsbD_eq fun i hi => ?_
      rw [hmask hi]
      by_cases hik : i = k
      · simp [hik, hbit]
      · simp [hik]
    rw [hzero]
    rfl

theorem hasBit_eq (bits : List (BitVec 64)) (index : Nat) :
    hasBit bits index = (bits.getD (index / 64) 0).getLsbD (index % 64) :=
  and_shift_ne_zero _ (Nat.mod_lt _ (by omega))

theorem hasBit_emptyBits (total index : Nat) : hasBit (emptyBits total) index = false := by
  rw [hasBit_eq, emptyBits, List.getD_eq_getElem?_getD, List.getElem?_replicate]
  split <;> simp

@[simp] theorem length_setBit (bits : List (BitVec 64)) (index : Nat) :
    (setBit bits index).length = bits.length :=
  List.length_modify ..

@[simp] theorem length_emptyBits (total : Nat) : (emptyBits total).length = (total + 63) / 64 :=
  List.length_replicate

/-- Setting a bit sets this bit and no other. -/
theorem hasBit_setBit {bits : List (BitVec 64)} {index : Nat} (hindex : index / 64 < bits.length)
    (j : Nat) : hasBit (setBit bits index) j = (hasBit bits j || decide (j = index)) := by
  rw [hasBit_eq, hasBit_eq, setBit, List.getD_eq_getElem?_getD, List.getD_eq_getElem?_getD,
    List.getElem?_modify]
  by_cases hword : index / 64 = j / 64
  · obtain ⟨word, hget⟩ : ∃ word, bits[j / 64]? = some word :=
      ⟨_, List.getElem?_eq_getElem (by omega)⟩
    have hmod : j % 64 < 64 := Nat.mod_lt _ (by omega)
    have hiff : j = index ↔ j % 64 = index % 64 := by omega
    rw [hget, Option.map_eq_map, Option.map_some, Option.getD_some, Option.getD_some, if_pos hword,
      BitVec.getLsbD_or, getLsbD_single hmod]
    simp only [hiff]
  · have hne : j ≠ index := fun heq => hword (by rw [heq])
    simp [hword, hne]

section split

variable (data : Bytes)

theorem partBytes_eq (i : Nat) :
    partBytes data i = (data.take ((i + 1) * blockPartSize)).drop (i * blockPartSize) := by
  rw [partBytes, Nat.succ_mul]
  congr 1
  rcases le_total (i * blockPartSize + blockPartSize) data.length with hle | hle
  · rw [min_eq_left hle]
  · rw [min_eq_right hle, List.take_length, List.take_of_length_le hle]

theorem length_partBytes (i : Nat) : (partBytes data i).length ≤ blockPartSize := by
  rw [partBytes_eq, List.length_drop, List.length_take, Nat.succ_mul]
  omega

/-- All parts but the last are full. -/
theorem length_partBytes_of_not_last {i : Nat} (hi : i + 1 < partCount data) :
    (partBytes data i).length = blockPartSize := by
  have hfull : (i + 1) * blockPartSize ≤ data.length := by
    have hmul : (i + 2) * blockPartSize ≤ data.length + blockPartSize - 1 :=
      (Nat.le_div_iff_mul_le (by decide)).mp hi
    rw [Nat.add_mul] at hmul ⊢
    have hpos : 0 < blockPartSize := by decide
    omega
  rw [partBytes_eq, List.length_drop, List.length_take, min_eq_left hfull, Nat.succ_mul]
  omega

/-- The first parts together are the start of the data. -/
theorem flatMap_partBytes (k : Nat) :
    (List.range k).flatMap (partBytes data) = data.take (k * blockPartSize) := by
  induction k with
  | zero => simp
  | succ k ih =>
    rw [List.range_succ, List.flatMap_append, ih, List.flatMap_singleton, partBytes_eq]
    have hstart : data.take (k * blockPartSize) =
        (data.take ((k + 1) * blockPartSize)).take (k * blockPartSize) := by
      rw [List.take_take, min_eq_left (Nat.mul_le_mul_right _ (Nat.le_succ k))]
    rw [hstart, List.take_append_drop]

theorem length_le_partCount : data.length ≤ partCount data * blockPartSize := by
  have hlt := Nat.lt_mul_div_succ (data.length + blockPartSize - 1) (b := blockPartSize) (by decide)
  have hpos : 0 < blockPartSize := by decide
  rw [Nat.mul_succ, Nat.mul_comm] at hlt
  rw [partCount]
  omega

/-- The parts together are the data. -/
theorem flatMap_partBytes_partCount :
    (List.range (partCount data)).flatMap (partBytes data) = data := by
  rw [flatMap_partBytes, List.take_of_length_le (length_le_partCount data)]

variable {data}

theorem partCount_pos (hdata : data ≠ []) : 0 < partCount data := by
  have hlen := List.length_pos_of_ne_nil hdata
  exact Nat.div_pos (by have : 0 < blockPartSize := (by decide); omega) (by decide)

theorem partCount_le (hmax : data.length ≤ maxBlockParts * blockPartSize) :
    partCount data ≤ maxBlockParts := by
  refine Nat.le_of_lt_succ (Nat.div_lt_of_lt_mul ?_)
  have hpos : 0 < blockPartSize := by decide
  rw [Nat.mul_succ, Nat.mul_comm]
  omega

end split

end Leaderberry
