import Mathlib.Data.Finset.Card
import Leaderberry.Types.PartSet

/-!
# Splitting data into parts and collecting them again

A sender splits data (`IsSplit`), a receiver starts from the header of the split and gets
parts in any order.

- `split_reassembles`: parts of the split are accepted in every order, re-sends are refused
  without effect, and the complete set returns the data. `Holds` describes the receiver by
  the set of the indices added so far.
- `stored_part_genuine`: what a receiver stores when the parts come from anyone. The code
  does not check the length of a proof path. With a path as long as the tree is high, a
  stored part is the sender's; a shorter path presents an inner node of the tree as a part
  (`short_path_accepted`). Hashes of parts and hashes of nodes are not kept apart.
-/

namespace Leaderberry

open MerkleTree

section

variable [Externals] {data : Bytes} {ps recv : PartSet} {h : Nat} {r : Bytes}

/-! ## The sender -/

/-- The leaves of the tree over `data`. -/
def leaves (data : Bytes) : List Bytes :=
  (List.range (partCount data)).map fun i => Externals.sha256 (partBytes data i)

/-- Part `i` of a split with the root `r`. -/
def splitPart (data : Bytes) (h : Nat) (r : Bytes) (i : Nat) : BlockPart where
  index := i
  bytes := partBytes data i
  proofPath := (path hashPair h (leaves data) i).map Hash.mk
  proofRoot := ⟨r⟩

/-- `ps` splits `data`: a tree of height `h` over the parts has the root `r`, and every part
carries its path. -/
structure IsSplit (data : Bytes) (h : Nat) (r : Bytes) (ps : PartSet) : Prop where
  total : ps.total = partCount data
  pos : 0 < ps.total
  few : ps.total ≤ maxBlockParts
  root : IsRoot hashPair h (leaves data) r
  hash : ps.hash = ⟨r⟩
  part : ∀ i < ps.total, ps.getPart i = some (splitPart data h r i)

@[simp] theorem length_leaves (data : Bytes) : (leaves data).length = partCount data := by
  simp [leaves]

theorem leaves_getElem? {i : Nat} (hi : i < partCount data) :
    (leaves data)[i]? = some (Externals.sha256 (partBytes data i)) := by
  simp [leaves, hi]

theorem leafHashes_data (data : Bytes) : (leafHashes data).map Hash.data = leaves data := by
  rw [leafHashes, leaves, List.map_map]
  rfl

omit [Externals] in
theorem getPart_fullPartSet {i : Nat} (hi : i < partCount data) (rootHash : Hash)
    {proofPaths : List (List Hash)} {proof : List Hash} (hproof : proofPaths[i]? = some proof) :
    (fullPartSet data rootHash proofPaths).getPart i =
      some ({ index := i, bytes := partBytes data i, proofPath := proof,
              proofRoot := rootHash } : BlockPart) := by
  rw [PartSet.getPart, fullPartSet, if_neg (Nat.not_le.mpr hi), List.getD_eq_getElem?_getD,
    List.getElem?_map, List.getElem?_range hi, Option.map_some, Option.getD_some,
    List.getD_eq_getElem?_getD, hproof, Option.getD_some]

/-- What `newPartSetFromData` returns. -/
theorem newPartSetFromData_isSplit (hdata : data ≠ [])
    (hmax : data.length ≤ maxBlockParts * blockPartSize) :
    ∃ ps h r, newPartSetFromData data = .ok ps ∧ IsSplit data h r ps := by
  have hfew := partCount_le hmax
  have hpos := partCount_pos hdata
  have hleaves : leaves data ≠ [] := List.ne_nil_of_length_pos (by rwa [length_leaves])
  obtain ⟨h, r, hroot⟩ := exists_isRoot hashPair (leaves data) hleaves
  rw [← leafHashes_data] at hroot
  have hspec := buildMerkleTreeWithProofs_spec hroot
  have hlength : (leafHashes data).length = partCount data := by simp [leafHashes]
  rw [newPartSetFromData, if_neg (by simpa using hdata), if_neg (Nat.not_lt.mpr hfew)]
  rw [leafHashes_data, hlength] at hspec
  rw [leafHashes_data] at hroot
  generalize buildMerkleTreeWithProofs (leafHashes data) = tree at hspec
  obtain ⟨rootHash, proofPaths⟩ := tree
  obtain ⟨rfl, hproofs⟩ := hspec
  exact ⟨_, h, r, rfl, rfl, hpos, hfew, hroot, rfl, fun i hi =>
    getPart_fullPartSet hi ⟨r⟩ (hproofs i hi)⟩

/-- Every part set that `newPartSetFromData` returns is a split. -/
theorem isSplit_of_ok (hps : newPartSetFromData data = .ok ps) : ∃ h r, IsSplit data h r ps := by
  have hdata : data ≠ [] := by
    rintro rfl
    cases hps
  have hfew : ¬ maxBlockParts < partCount data := by
    intro hmany
    rw [newPartSetFromData, if_neg (by simpa using hdata), if_pos hmany] at hps
    cases hps
  have hmax : data.length ≤ maxBlockParts * blockPartSize :=
    (length_le_partCount data).trans (Nat.mul_le_mul_right _ (Nat.not_lt.mp hfew))
  obtain ⟨ps', h, r, hps', hsplit⟩ := newPartSetFromData_isSplit hdata hmax
  obtain rfl := Except.ok.inj (hps.symm.trans hps')
  exact ⟨h, r, hsplit⟩

namespace IsSplit

theorem height_eq (hsplit : IsSplit data h r ps) : h = Nat.clog 2 ps.total := by
  rw [hsplit.root.height_eq, length_leaves, hsplit.total]

/-- A part of the split passes the check of `AddPart`. -/
theorem verifies (hsplit : IsSplit data h r ps) {i : Nat} (hi : i < ps.total)
    (hhash : recv.hash = ps.hash) : recv.verifies (splitPart data h r i) := by
  rw [PartSet.verifies, verifyMerkleProof_iff, hhash, hsplit.hash]
  have hmap : (splitPart data h r i).proofPath.map Hash.data = path hashPair h (leaves data) i := by
    rw [splitPart, List.map_map]
    exact List.map_id' _
  rw [hmap]
  rw [hsplit.total] at hi
  exact hsplit.root.climb_path (leaves_getElem? hi)

end IsSplit

/-! ## Receiving the parts of the split -/

/-- Bitmap and counter are those of the parts in `S`. -/
structure Counted (S : Finset Nat) (recv : PartSet) : Prop where
  words : recv.partsBits.length = (recv.total + 63) / 64
  bits : ∀ i < recv.total, hasBit recv.partsBits i = decide (i ∈ S)
  count : recv.partsCount = S.card
  sub : S ⊆ Finset.range recv.total

namespace Counted

variable {S : Finset Nat}

section

omit [Externals]

theorem hasPart (h : Counted S recv) {i : Nat} (hi : i < recv.total) :
    recv.hasPart i = decide (i ∈ S) := by
  rw [PartSet.hasPart, if_neg (Nat.not_le.mpr hi), h.bits i hi]

theorem missingParts (h : Counted S recv) :
    recv.missingParts = (List.range recv.total).filter fun i => i ∉ S := by
  rw [PartSet.missingParts]
  refine List.filter_congr fun i hi => ?_
  rw [h.hasPart (List.mem_range.mp hi), decide_not]

/-- The writes of `AddPart` for a new part. -/
theorem store (h : Counted S recv) {p : BlockPart} (hi : p.index < recv.total)
    (hnew : p.index ∉ S) : Counted (insert p.index S) (recv.store p) where
  words := by rw [PartSet.store, length_setBit, h.words]
  bits j hj := by
    have hword : p.index / 64 < recv.partsBits.length := by
      rw [h.words]
      omega
    rw [PartSet.store, hasBit_setBit hword, h.bits j hj, Bool.eq_iff_iff]
    simp [or_comm]
  count := by rw [PartSet.store, h.count, Finset.card_insert_of_notMem hnew]
  sub := Finset.insert_subset (Finset.mem_range.mpr hi) h.sub

end

end Counted

/-- The receiver has the parts in `S`. -/
structure Holds (ps : PartSet) (S : Finset Nat) (recv : PartSet) : Prop where
  total : recv.total = ps.total
  hash : recv.hash = ps.hash
  parts : recv.parts = (List.range ps.total).map fun i => if i ∈ S then ps.getPart i else none
  words : recv.partsBits.length = (ps.total + 63) / 64
  bits : ∀ i < ps.total, hasBit recv.partsBits i = decide (i ∈ S)
  count : recv.partsCount = S.card
  sub : S ⊆ Finset.range ps.total

/-- The receiver after calls that added the parts in `S`: the data is there as soon as the
parts are complete. -/
structure Collects (data : Bytes) (ps : PartSet) (S : Finset Nat) (recv : PartSet) : Prop
    extends Holds ps S recv where
  data : recv.data = if S.card = ps.total then some data else none

section receiver

variable {S : Finset Nat}

namespace Holds

variable {i : Nat}

omit [Externals] in
theorem counted (hholds : Holds ps S recv) : Counted S recv where
  words := by
    rw [hholds.total]
    exact hholds.words
  bits := by
    rw [hholds.total]
    exact hholds.bits
  count := hholds.count
  sub := by
    rw [hholds.total]
    exact hholds.sub

omit [Externals] in
theorem hasPart (hholds : Holds ps S recv) (hi : i < ps.total) :
    recv.hasPart i = decide (i ∈ S) :=
  hholds.counted.hasPart (hholds.total.symm ▸ hi)

/-- The bounds that `AddPart` checks hold for the parts of the split. -/
theorem inBounds (hholds : Holds ps S recv) (data : Bytes) (h : Nat) (r : Bytes)
    (hi : i < ps.total) :
    ¬ recv.total ≤ (splitPart data h r i).index ∧
      ¬ blockPartSize < (splitPart data h r i).bytes.length := by
  constructor
  · rw [hholds.total]
    exact Nat.not_le.mpr hi
  · exact Nat.not_lt.mpr (length_partBytes data i)

omit [Externals] in
theorem missingParts (hholds : Holds ps S recv) :
    recv.missingParts = (List.range ps.total).filter fun i => i ∉ S := by
  rw [hholds.counted.missingParts, hholds.total]

omit [Externals] in
theorem eq_range (hholds : Holds ps S recv) (hfull : S.card = ps.total) :
    S = Finset.range ps.total :=
  Finset.eq_of_subset_of_card_le hholds.sub (by rw [Finset.card_range, hfull])

/-- The writes of `AddPart` for a new part. -/
theorem store (hsplit : IsSplit data h r ps) (hholds : Holds ps S recv) (hi : i < ps.total)
    (hnew : i ∉ S) :
    Holds ps (insert i S) (recv.store (splitPart data h r i)) := by
  have hcounted : Counted (insert i S) (recv.store (splitPart data h r i)) :=
    hholds.counted.store (p := splitPart data h r i) (hholds.total.symm ▸ hi) hnew
  have htotal : (recv.store (splitPart data h r i)).total = ps.total := hholds.total
  refine ⟨htotal, hholds.hash, ?_, htotal ▸ hcounted.words, htotal ▸ hcounted.bits,
    hcounted.count, htotal ▸ hcounted.sub⟩
  · rw [PartSet.store, hholds.parts]
    refine List.ext_getElem? fun j => ?_
    rw [List.getElem?_set, List.getElem?_map, List.getElem?_map, List.length_map,
      List.length_range]
    by_cases hj : i = j
    · subst hj
      simp [splitPart, hi, hsplit.part i hi]
    · rw [splitPart, if_neg hj]
      rcases Nat.lt_or_ge j ps.total with hlt | hge
      · simp [List.getElem?_range hlt, Ne.symm hj]
      · simp [List.getElem?_eq_none (l := List.range ps.total) (by simpa using hge)]

/-- A part that passes the checks is there after the call, wherever it came from. -/
theorem getPart_addPart (hholds : Holds ps S recv) {p : BlockPart} (hi : p.index < ps.total)
    (hlen : p.bytes.length ≤ blockPartSize) (hnew : p.index ∉ S) (hverifies : recv.verifies p) :
    (recv.addPart (some p)).1.getPart p.index = some p := by
  have hhas : recv.hasPart p.index = false := by
    rw [hholds.hasPart hi]
    exact decide_eq_false hnew
  have hparts : recv.parts.length = ps.total := by simp [hholds.parts]
  rw [← hholds.total] at hi hparts
  rw [addPart_admitted_stored ⟨hi, hlen, hhas, hverifies⟩]
  simp [PartSet.getPart, PartSet.store, hi, hparts]

/-- With all parts there, the assembly succeeds. -/
theorem assembleData (hsplit : IsSplit data h r ps) (hholds : Holds ps S recv)
    (hfull : S.card = ps.total) :
    recv.assembleData = ({ recv with data := some data }, none) := by
  have hcollected : recv.collected = (List.range (partCount data)).map (partBytes data) := by
    rw [PartSet.collected, hholds.parts, List.map_map, ← hsplit.total]
    refine List.map_congr_left fun i hi => ?_
    have hmem : i ∈ S := by
      rw [hholds.eq_range hfull]
      exact Finset.mem_range.mpr (List.mem_range.mp hi)
    rw [Function.comp_apply, if_pos hmem, hsplit.part i (List.mem_range.mp hi), Option.map_some,
      Option.getD_some, splitPart]
  have hleaves : recv.collected.map Externals.sha256 = leaves data := by
    rw [hcollected, List.map_map, leaves]
    rfl
  have hroot : computeMerkleRoot (recv.collected.map Externals.sha256) = recv.hash := by
    rw [hleaves, hholds.hash, hsplit.hash, computeMerkleRoot_spec hsplit.root]
  have hdata : recv.collected.flatten = data := by
    rw [hcollected, ← List.flatMap_def, flatMap_partBytes_partCount]
  rw [PartSet.assembleData, if_neg (not_not.mpr hroot), hdata]

end Holds

namespace Collects

omit [Externals] in
/-- The complete set returns the data. -/
theorem getData (hcollects : Collects data ps S recv) (hall : ∀ i < ps.total, i ∈ S) :
    recv.getData = .ok data := by
  have hfull : S.card = ps.total := by
    have hrange : Finset.range ps.total ⊆ S := fun i hi => hall i (Finset.mem_range.mp hi)
    rw [hcollects.sub.antisymm hrange, Finset.card_range]
  rw [PartSet.getData, hcollects.count, hcollects.total, if_neg (not_not.mpr hfull),
    hcollects.data, if_pos hfull]

/-- A part that is already there is refused, and nothing changes. -/
theorem resend (hsplit : IsSplit data h r ps) (hcollects : Collects data ps S recv) {i : Nat}
    (hmem : i ∈ S) : recv.addPart (ps.getPart i) = (recv, some .alreadyHas) := by
  have hi : i < ps.total := Finset.mem_range.mp (hcollects.sub hmem)
  obtain ⟨hindex, hlen⟩ := hcollects.inBounds data h r hi
  have hhas : recv.hasPart (splitPart data h r i).index := by
    rw [splitPart, hcollects.hasPart hi]
    exact decide_eq_true hmem
  rw [hsplit.part i hi, PartSet.addPart, if_neg hindex, if_neg hlen, if_pos hhas]

/-- A new part is accepted. -/
theorem addPart (hsplit : IsSplit data h r ps) (hcollects : Collects data ps S recv) {i : Nat}
    (hi : i < ps.total) (hnew : i ∉ S) :
    (recv.addPart (ps.getPart i)).2 = none ∧
      Collects data ps (insert i S) (recv.addPart (ps.getPart i)).1 := by
  obtain ⟨hindex, hlen⟩ := hcollects.inBounds data h r hi
  have hhas : recv.hasPart (splitPart data h r i).index = false := by
    rw [splitPart, hcollects.hasPart hi]
    exact decide_eq_false hnew
  have hadmits : Admits recv (splitPart data h r i) :=
    ⟨Nat.not_le.mp hindex, Nat.not_lt.mp hlen, hhas, hsplit.verifies hi hcollects.hash⟩
  have hstore := hcollects.toHolds.store hsplit hi hnew
  have hcount : recv.partsCount + 1 = (insert i S).card := hstore.count
  rw [hsplit.part i hi, addPart_admitted hadmits, hcount, hcollects.total]
  split
  · rename_i hfull
    rw [hstore.assembleData hsplit hfull]
    exact ⟨rfl, { hstore with data := (if_pos hfull).symm }⟩
  · rename_i hpartial
    refine ⟨rfl, { hstore with data := ?_ }⟩
    -- No part was missing before, so this is not the state of a complete set.
    have hbefore : S.card ≠ ps.total := by
      intro hfull
      exact hnew (by rw [hcollects.eq_range hfull]; exact Finset.mem_range.mpr hi)
    rw [if_neg hpartial, PartSet.store, hcollects.data, if_neg hbefore]

/-- The calls for a list of indices, in its order. -/
theorem addParts (hsplit : IsSplit data h r ps) (hcollects : Collects data ps S recv)
    (sent : List Nat) (hsent : ∀ i ∈ sent, i < ps.total) :
    Collects data ps (S ∪ sent.toFinset) (recv.addParts (sent.map ps.getPart)) := by
  induction sent generalizing S recv with
  | nil =>
    rw [List.toFinset_nil, Finset.union_empty]
    exact hcollects
  | cons i rest ih =>
    obtain ⟨hi, hrest⟩ := List.forall_mem_cons.mp hsent
    have hstep : Collects data ps (insert i S) (recv.addPart (ps.getPart i)).1 := by
      by_cases hmem : i ∈ S
      · rw [hcollects.resend hsplit hmem, Finset.insert_eq_of_mem hmem]
        exact hcollects
      · exact (hcollects.addPart hsplit hi hmem).2
    have hunion : S ∪ (i :: rest).toFinset = insert i S ∪ rest.toFinset := by
      rw [List.toFinset_cons, Finset.union_insert, Finset.insert_union]
    rw [hunion]
    exact ih hstep hrest

end Collects

omit [Externals] in
/-- The receiver that `newPartSetFromHeader` creates has no part yet. -/
theorem collects_empty (hpos : 0 < ps.total) (hrecv : newPartSetFromHeader ps.header = .ok recv) :
    Collects data ps ∅ recv := by
  unfold newPartSetFromHeader at hrecv
  split at hrecv
  · cases hrecv
  obtain rfl := Except.ok.inj hrecv
  constructor
  · constructor
    · rfl
    · rfl
    · simp [PartSet.header, List.map_const']
    · exact length_emptyBits _
    · intro i _
      simpa using hasBit_emptyBits ..
    · rfl
    · exact Finset.empty_subset _
  · rw [Finset.card_empty, if_neg hpos.ne]

end receiver

/-- **Split and reassemble.** The parts of a split may be added in any order and any number
of times. After the calls for the indices in `sent`, a part that was not sent is accepted,
one that was sent is refused without effect, the counters match, and if nothing is missing
the data comes out. -/
theorem split_reassembles (data : Bytes) (hdata : data ≠ [])
    (hmax : data.length ≤ maxBlockParts * blockPartSize) :
    ∃ ps recv, newPartSetFromData data = .ok ps ∧ newPartSetFromHeader ps.header = .ok recv ∧
      ∀ sent : List Nat, (∀ i ∈ sent, i < ps.total) →
        let now := recv.addParts (sent.map ps.getPart)
        (∀ i < ps.total, i ∉ sent → (now.addPart (ps.getPart i)).2 = none) ∧
        (∀ i ∈ sent, now.addPart (ps.getPart i) = (now, some .alreadyHas)) ∧
        now.partsCount = sent.toFinset.card ∧
        now.missingParts = (List.range ps.total).filter (fun i => i ∉ sent) ∧
        ((∀ i < ps.total, i ∈ sent) → now.getData = .ok data) := by
  obtain ⟨ps, h, r, hps, hsplit⟩ := newPartSetFromData_isSplit hdata hmax
  obtain ⟨recv, hrecv⟩ : ∃ recv, newPartSetFromHeader ps.header = .ok recv := by
    unfold newPartSetFromHeader PartSet.header
    exact ⟨_, if_neg (Nat.not_lt.mpr hsplit.few)⟩
  refine ⟨ps, recv, hps, hrecv, fun sent hsent => ?_⟩
  have hnow := (collects_empty hsplit.pos hrecv).addParts hsplit sent hsent
  rw [Finset.empty_union] at hnow
  refine ⟨fun i hi hnew => ?_, fun i hi => ?_, hnow.count, ?_, fun hall => ?_⟩
  · exact (hnow.addPart hsplit hi (by simpa using hnew)).1
  · exact hnow.resend hsplit (by simpa using hi)
  · simpa using hnow.missingParts
  · exact hnow.getData fun i hi => by simpa using hall i hi

end

/-- The bytes of a full part. -/
@[irreducible] def fullPart : Bytes := List.replicate blockPartSize 0

theorem length_fullPart : fullPart.length = blockPartSize := by
  rw [fullPart, List.length_replicate]

/-- Data of two parts. -/
def twoParts : Bytes := fullPart ++ [0]

theorem length_twoParts : twoParts.length = blockPartSize + 1 := by
  rw [twoParts, List.length_append, length_fullPart]
  rfl

theorem partCount_twoParts : partCount twoParts = 2 := by
  rw [partCount, length_twoParts]
  rfl

theorem twoParts_ne_nil : twoParts ≠ [] :=
  List.ne_nil_of_length_pos (by rw [length_twoParts]; exact Nat.succ_pos _)

/-- The second part comes first and then again. -/
theorem split_reassembles_two_parts : letI := transparent; ∃ ps recv,
    newPartSetFromData twoParts = .ok ps ∧ newPartSetFromHeader ps.header = .ok recv ∧
      ps.total = 2 ∧ (recv.addParts [ps.getPart 1]).missingParts = [0] ∧
      ((recv.addParts [ps.getPart 1]).addPart (ps.getPart 0)).2 = none ∧
      ((recv.addParts [ps.getPart 1, ps.getPart 0]).addPart (ps.getPart 1)).2 =
        some .alreadyHas ∧
      (recv.addParts [ps.getPart 1, ps.getPart 0, ps.getPart 1]).getData = .ok twoParts := by
  let _ := transparent
  have hmax : twoParts.length ≤ maxBlockParts * blockPartSize := by
    rw [length_twoParts]
    decide
  obtain ⟨ps, recv, hps, hrecv, hrun⟩ := split_reassembles twoParts twoParts_ne_nil hmax
  obtain ⟨h, r, hsplit⟩ := isSplit_of_ok hps
  have htotal : ps.total = 2 := hsplit.total.trans partCount_twoParts
  rw [htotal] at hrun
  obtain ⟨hnew, -, -, hmissing, -⟩ := hrun [1] (by decide)
  obtain ⟨-, hagain, -, -, -⟩ := hrun [1, 0] (by decide)
  obtain ⟨-, -, -, -, hdata⟩ := hrun [1, 0, 1] (by decide)
  refine ⟨ps, recv, hps, hrecv, htotal, hmissing.trans (by decide),
    hnew 0 (by decide) (by decide), ?_, hdata (by decide)⟩
  exact congrArg Prod.snd (hagain 1 (by decide))

section

variable [Externals] {data : Bytes} {ps recv : PartSet} {h : Nat} {r : Bytes}

/-! ## Parts from anyone -/

/-- The byte strings hashed when `data` is split: the parts, and the pairs of the tree. -/
def splitInputs (data : Bytes) : List Bytes :=
  (List.range (partCount data)).map (partBytes data) ++
    (treePairs hashPair (Nat.clog 2 (partCount data)) (leaves data)).map fun q => q.1 ++ q.2

/-- The byte strings hashed when a part is checked. -/
def checkInputs (part : BlockPart) : List Bytes :=
  part.bytes :: (climbPairs hashPair part.index (Externals.sha256 part.bytes)
    (part.proofPath.map Hash.data)).map fun q => q.1 ++ q.2

/-- SHA-256 does not collide between the split of `data` and the checks of `parts`. -/
def NoPartCollision (data : Bytes) (parts : List (Option BlockPart)) : Prop :=
  ∀ x ∈ splitInputs data, ∀ part, some part ∈ parts → ∀ y ∈ checkInputs part,
    Externals.sha256 x = Externals.sha256 y → x = y

namespace PartSet

/-- Every part that a sequence of calls stores came with one of them, under its index, and
verified. -/
theorem addParts_stored {parts : List (Option BlockPart)} {i : Nat} {p : BlockPart}
    (hstored : (ps.addParts parts).parts[i]? = some (some p)) :
    ps.parts[i]? = some (some p) ∨ p.index = i ∧ some p ∈ parts ∧ ps.verifies p := by
  induction parts generalizing ps with
  | nil => exact .inl hstored
  | cons part rest ih =>
    have hrest : ((ps.addPart part).1.addParts rest).parts[i]? = some (some p) := hstored
    rcases addPart_cases part ps with hsame | ⟨q, data, rfl, hverifies, hstore⟩
    · rw [hsame] at hrest
      exact (ih hrest).imp_right fun h => ⟨h.1, List.mem_cons_of_mem _ h.2.1, h.2.2⟩
    · rw [hstore] at hrest
      rcases ih hrest with hbefore | ⟨hindex, hmem, hp⟩
      · change (ps.parts.set q.index (some q))[i]? = some (some p) at hbefore
        rw [List.getElem?_set] at hbefore
        split at hbefore
        · rename_i hqi
          split at hbefore
          · obtain rfl : q = p := by simpa using hbefore
            exact .inr ⟨hqi, List.mem_cons_self .., hverifies⟩
          · cases hbefore
        · exact .inl hbefore
      · exact .inr ⟨hindex, List.mem_cons_of_mem _ hmem, hp⟩

theorem addParts_total (parts : List (Option BlockPart)) :
    (ps.addParts parts).total = ps.total :=
  congrArg BlockPartSetHeader.total (header_addParts parts)

omit [Externals] in
theorem getPart_eq_some {i : Nat} {p : BlockPart} (hpart : ps.getPart i = some p) :
    i < ps.total ∧ ps.parts[i]? = some (some p) := by
  unfold getPart at hpart
  split at hpart
  · cases hpart
  rename_i hi
  refine ⟨Nat.not_le.mp hi, ?_⟩
  rw [List.getD_eq_getElem?_getD] at hpart
  cases hget : ps.parts[i]? with
  | none => simp [hget] at hpart
  | some q => simpa [hget] using hpart

end PartSet

/-- The leaves are digests. -/
theorem forall_leaves (hsize : ∀ m, (Externals.sha256 m).length = hashSize) :
    ∀ x ∈ leaves data, x.length = hashSize := by
  intro x hx
  obtain ⟨i, -, rfl⟩ := List.mem_map.mp hx
  exact hsize _

section genuine

variable {parts : List (Option BlockPart)}
  (hsize : ∀ m, (Externals.sha256 m).length = hashSize)
  (hcollision : NoPartCollision data parts)
include hsize hcollision

/-- Without collisions, a pair of the tree that hashes like a pair of a check is this
pair: nodes have a fixed size, and one side of every checked pair is a hash. -/
theorem pair_eq_of_hashPair_eq {part : BlockPart} (hpart : some part ∈ parts)
    {q : Bytes × Bytes}
    (hq : q ∈ treePairs hashPair (Nat.clog 2 (partCount data)) (leaves data))
    {q' : Bytes × Bytes}
    (hq' : q' ∈ climbPairs hashPair part.index (Externals.sha256 part.bytes)
      (part.proofPath.map Hash.data))
    (heq : hashPair q.1 q.2 = hashPair q'.1 q'.2) : q = q' := by
  have hcomb (a b : Bytes) : (hashPair a b).length = hashSize := hsize _
  have happend : q.1 ++ q.2 = q'.1 ++ q'.2 :=
    hcollision _ (List.mem_append_right _ (List.mem_map_of_mem hq)) part hpart _
      (List.mem_cons_of_mem _ (List.mem_map_of_mem hq')) heq
  obtain ⟨hleft, hright⟩ :=
    forall_treePairs (P := fun x => x.length = hashSize) hcomb (forall_leaves hsize) q hq
  rcases forall_climbPairs (P := fun x => x.length = hashSize) hcomb (hsize _) q' hq' with
    hone | hone
  · obtain ⟨h₁, h₂⟩ := List.append_inj happend (hleft.trans hone.symm)
    exact Prod.ext h₁ h₂
  · obtain ⟨h₁, h₂⟩ := List.append_inj' happend (hright.trans hone.symm)
    exact Prod.ext h₁ h₂

/-- What a stored part with a short path is: two nodes of the tree. -/
theorem bytes_of_short_path (hroot : IsRoot hashPair (Nat.clog 2 (partCount data)) (leaves data) r)
    {p : BlockPart} (hmem : some p ∈ parts)
    (hclimb : climb hashPair p.index (Externals.sha256 p.bytes) (p.proofPath.map Hash.data) = r)
    (hshort : p.proofPath.length < Nat.clog 2 (partCount data)) :
    p.bytes.length = 2 * hashSize := by
  obtain ⟨q, hq, heq⟩ := hroot.inner_of_climb
    (fun q hq q' hq' => pair_eq_of_hashPair_eq hsize hcollision hmem hq hq')
    (by simpa using hshort) hclimb
  have hbytes : q.1 ++ q.2 = p.bytes :=
    hcollision _ (List.mem_append_right _ (List.mem_map_of_mem hq)) p hmem _
      (List.mem_cons_self ..) heq.symm
  obtain ⟨hleft, hright⟩ :=
    forall_treePairs (P := fun x => x.length = hashSize) (fun a b => hsize _)
      (forall_leaves hsize) q hq
  rw [← hbytes, List.length_append, hleft, hright, Nat.two_mul]

/-- **When a stored part is genuine.** Parts may come from anyone, with any bytes and any
path. A part that was stored with a path as long as the tree is high has the bytes of the
sender's part. For all parts but the last this is necessary in that no shorter path
comes with the right bytes. -/
theorem stored_part_genuine (hps : newPartSetFromData data = .ok ps)
    (hrecv : newPartSetFromHeader ps.header = .ok recv) {i : Nat} {p : BlockPart}
    (hstored : (recv.addParts parts).getPart i = some p) :
    (p.proofPath.length = Nat.clog 2 ps.total →
      (ps.getPart i).map BlockPart.bytes = some p.bytes) ∧
    ((ps.getPart i).map BlockPart.bytes = some p.bytes → i + 1 < ps.total →
      Nat.clog 2 ps.total ≤ p.proofPath.length) := by
  obtain ⟨h, r, hsplit⟩ := isSplit_of_ok hps
  have hempty : Holds ps ∅ recv := (collects_empty hsplit.pos hrecv : Collects data ..).toHolds
  obtain ⟨hi, hget⟩ := PartSet.getPart_eq_some hstored
  rw [PartSet.addParts_total, hempty.total] at hi
  -- The receiver started without parts, so this one came with a call and verified.
  obtain ⟨rfl, hmem, hverifies⟩ : p.index = i ∧ some p ∈ parts ∧ recv.verifies p := by
    refine (PartSet.addParts_stored hget).resolve_left fun hbefore => ?_
    rw [hempty.parts] at hbefore
    simp [List.getElem?_replicate] at hbefore
  have hheight := hsplit.height_eq
  rw [hsplit.total] at hheight
  subst hheight
  rw [PartSet.verifies, verifyMerkleProof_iff, hempty.hash, hsplit.hash] at hverifies
  have hpart : (ps.getPart p.index).map BlockPart.bytes = some (partBytes data p.index) := by
    rw [hsplit.part p.index hi]
    rfl
  rw [hpart, hsplit.total]
  rw [hsplit.total] at hi
  constructor
  · intro hlen
    have hleaf := hsplit.root.leaf_of_climb
      (fun q hq q' hq' => pair_eq_of_hashPair_eq hsize hcollision hmem hq hq')
      (by rwa [List.length_map]) (by rwa [length_leaves]) hverifies
    rw [leaves_getElem? hi] at hleaf
    have hinput : partBytes data p.index ∈ splitInputs data :=
      List.mem_append_left _ (List.mem_map_of_mem (List.mem_range.mpr hi))
    exact congrArg some
      (hcollision _ hinput p hmem _ (List.mem_cons_self ..) (Option.some.inj hleaf))
  · intro hbytes hlast
    by_contra hshort
    have hnode := bytes_of_short_path hsize hcollision hsplit.root hmem hverifies
      (Nat.not_le.mp hshort)
    rw [← Option.some.inj hbytes, length_partBytes_of_not_last data hlast] at hnode
    exact absurd hnode (by decide)

end genuine

end

/-! ## Two parts and a forged one -/

/-- A digest that tells the length of its input modulo a prime. -/
@[reducible] def lengthDigest : Externals :=
  { transparent with sha256 m := fitTo hashSize [Fin.ofNat 256 (m.length % 251)] }

section twoParts

attribute [local instance] lengthDigest

/-- The leaves over `twoParts`. -/
def leaf₀ : Bytes := fitTo hashSize [25]
def leaf₁ : Bytes := fitTo hashSize [1]

theorem partBytes_twoParts_one : partBytes twoParts 1 = [0] := by
  rw [partBytes_eq, List.take_of_length_le (by rw [length_twoParts]; decide), twoParts, Nat.one_mul,
    ← length_fullPart, List.drop_left]

theorem length_partBytes_twoParts : (partBytes twoParts 0).length = 65536 :=
  length_partBytes_of_not_last twoParts (by rw [partCount_twoParts]; omega)

theorem leaves_twoParts : leaves twoParts = [leaf₀, leaf₁] := by
  have hrange : List.range 2 = [0, 1] := rfl
  rw [leaves, partCount_twoParts, hrange, List.map_cons, List.map_singleton,
    partBytes_twoParts_one]
  simp only [Externals.sha256, length_partBytes_twoParts]
  decide

theorem splitInputs_twoParts :
    splitInputs twoParts = [partBytes twoParts 0, [0], leaf₀ ++ leaf₁] := by
  have hheight : Nat.clog 2 2 = 1 := Nat.clog_eq_one (Nat.le_refl 2) (Nat.le_refl 2)
  have hrange : List.range 2 = [0, 1] := rfl
  rw [splitInputs, partCount_twoParts, leaves_twoParts, hheight, hrange]
  simp [partBytes_twoParts_one, treePairs, levelPairs]

theorem length_mod_of_digest_eq {x y : Bytes} (heq : Externals.sha256 x = Externals.sha256 y) :
    x.length % 251 = y.length % 251 := by
  simp only [Externals.sha256, fitTo, hashSize, List.cons_append, List.nil_append,
    List.take_succ_cons, List.cons.injEq, Fin.ofNat, Fin.mk.injEq] at heq
  have hbyte := heq.1
  omega

/-- The three strings that are hashed have different lengths, so they do not collide. -/
theorem eq_of_digest_eq_twoParts {x y : Bytes} (hx : x ∈ splitInputs twoParts)
    (hy : y ∈ splitInputs twoParts) (heq : Externals.sha256 x = Externals.sha256 y) : x = y := by
  rw [splitInputs_twoParts] at hx hy
  simp only [List.mem_cons, List.not_mem_nil, or_false] at hx hy
  have hlen₀ := length_partBytes_twoParts
  generalize partBytes twoParts 0 = part₀ at hx hy hlen₀
  have hlen₁ : ([0] : Bytes).length = 1 := rfl
  have hlen₂ : (leaf₀ ++ leaf₁).length = 64 := by decide
  have hxy := length_mod_of_digest_eq heq
  rcases hx with rfl | rfl | rfl <;> rcases hy with rfl | rfl | rfl
  case inl.inl | inr.inl.inr.inl | inr.inr.inr.inr => rfl
  all_goals omega

theorem noPartCollision_twoParts {parts : List (Option BlockPart)}
    (hchecked : ∀ part, some part ∈ parts → ∀ y ∈ checkInputs part, y ∈ splitInputs twoParts) :
    NoPartCollision twoParts parts :=
  fun _ hx part hpart y hy => eq_of_digest_eq_twoParts hx (hchecked part hpart y hy)

/-- The two leaves as a part. -/
def forgedPart : BlockPart where
  index := 0
  bytes := leaf₀ ++ leaf₁
  proofPath := []
  proofRoot := ⟨Externals.sha256 (leaf₀ ++ leaf₁)⟩

theorem root_twoParts {h : Nat} {r : Bytes} (hroot : IsRoot hashPair h (leaves twoParts) r) :
    r = hashPair leaf₀ leaf₁ := by
  rw [leaves_twoParts] at hroot
  exact hroot.unique (.level (Nat.le_refl 2) (.single _))

/-- A sender of `twoParts` and a receiver that starts from its header. -/
theorem exists_split_twoParts : ∃ ps recv, newPartSetFromData twoParts = .ok ps ∧
    newPartSetFromHeader ps.header = .ok recv ∧ ps.total = 2 ∧
      IsSplit twoParts 1 (hashPair leaf₀ leaf₁) ps ∧ Holds ps ∅ recv := by
  obtain ⟨ps, h, r, hps, hsplit⟩ :=
    newPartSetFromData_isSplit twoParts_ne_nil (by rw [length_twoParts]; decide)
  have htotal : ps.total = 2 := by rw [hsplit.total, partCount_twoParts]
  obtain rfl : h = 1 := by
    rw [hsplit.height_eq, htotal, Nat.clog_eq_one (Nat.le_refl 2) (Nat.le_refl 2)]
  obtain rfl := root_twoParts hsplit.root
  obtain ⟨recv, hrecv⟩ : ∃ recv, newPartSetFromHeader ps.header = .ok recv :=
    ⟨_, if_neg (Nat.not_lt.mpr hsplit.few)⟩
  exact ⟨ps, recv, hps, hrecv, htotal, hsplit,
    (collects_empty hsplit.pos hrecv : Collects twoParts ..).toHolds⟩

/-- A 64-byte inner node with an empty path is stored as part 0 of data whose part 0 has
65536 bytes. No hash collides. -/
theorem forged_part_stored : ∃ ps recv,
    newPartSetFromData twoParts = .ok ps ∧ newPartSetFromHeader ps.header = .ok recv ∧
      (∀ m, (Externals.sha256 m).length = hashSize) ∧ NoPartCollision twoParts [some forgedPart] ∧
      (recv.addParts [some forgedPart]).getPart 0 = some forgedPart ∧
      (ps.getPart 0).map BlockPart.bytes ≠ some forgedPart.bytes := by
  obtain ⟨ps, recv, hps, hrecv, htotal, hsplit, hempty⟩ := exists_split_twoParts
  refine ⟨ps, recv, hps, hrecv, fun m => length_fitTo .., ?_, ?_, ?_⟩
  · refine noPartCollision_twoParts fun part hpart y hy => ?_
    obtain rfl : part = forgedPart := by simpa using hpart
    obtain rfl : y = leaf₀ ++ leaf₁ := by simpa [checkInputs, forgedPart, climbPairs] using hy
    simp [splitInputs_twoParts]
  · refine hempty.getPart_addPart ?_ (by decide) (Finset.notMem_empty _) ?_
    · rw [htotal]
      decide
    · rw [PartSet.verifies, verifyMerkleProof_iff, hempty.hash, hsplit.hash]
      rfl
  · intro heq
    rw [hsplit.part 0 hsplit.pos, Option.map_some, Option.some.injEq] at heq
    have hlen := congrArg List.length heq
    simp only [splitPart, forgedPart, length_partBytes_twoParts] at hlen
    exact absurd hlen (by decide)

/-- The genuine second part is stored, with a path of length one. -/
theorem stored_second_part : ∃ ps recv p,
    newPartSetFromData twoParts = .ok ps ∧ newPartSetFromHeader ps.header = .ok recv ∧
      NoPartCollision twoParts [some p] ∧ (recv.addParts [some p]).getPart 1 = some p ∧
      p.proofPath.length = Nat.clog 2 ps.total ∧
      (ps.getPart 1).map BlockPart.bytes = some p.bytes := by
  obtain ⟨ps, recv, hps, hrecv, htotal, hsplit, hempty⟩ := exists_split_twoParts
  have hpath : path hashPair 1 (leaves twoParts) 1 = [leaf₀] := by
    rw [leaves_twoParts]
    rfl
  have hcollision :
      NoPartCollision twoParts [some (splitPart twoParts 1 (hashPair leaf₀ leaf₁) 1)] := by
    refine noPartCollision_twoParts fun part hpart y hy => ?_
    obtain rfl : part = splitPart twoParts 1 (hashPair leaf₀ leaf₁) 1 := by simpa using hpart
    simp only [checkInputs, splitPart, partBytes_twoParts_one, hpath] at hy
    have hleaf : Externals.sha256 ([0] : Bytes) = leaf₁ := by decide
    rcases List.mem_cons.mp hy with rfl | hy
    · simp [splitInputs_twoParts]
    · obtain rfl : y = leaf₀ ++ leaf₁ := by simpa [climbPairs, hleaf] using hy
      simp [splitInputs_twoParts]
  have hone : 1 < ps.total := by
    rw [htotal]
    decide
  have hstored := hempty.getPart_addPart (p := splitPart twoParts 1 (hashPair leaf₀ leaf₁) 1) hone
    (length_partBytes twoParts 1) (Finset.notMem_empty _) (hsplit.verifies hone hempty.hash)
  have hlen : (splitPart twoParts 1 (hashPair leaf₀ leaf₁) 1).proofPath.length =
      Nat.clog 2 ps.total := by
    rw [splitPart, hpath, htotal, Nat.clog_eq_one (Nat.le_refl 2) (Nat.le_refl 2)]
    rfl
  exact ⟨ps, recv, _, hps, hrecv, hcollision, hstored, hlen,
    (stored_part_genuine (fun m => length_fitTo ..) hcollision hps hrecv hstored).1 hlen⟩

end twoParts

end Leaderberry
