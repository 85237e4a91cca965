import Leaderberry.Types.Reassembly

/-!
# A part that cannot be taken back

`AddPart` stores a part and assembles the data when the part was the last one. The assembly
computes the root anew, over the parts as they are. If that fails, the call returns an error,
but the part stays stored, the counter is at the total and the bits are set: every further
part is refused as already there, and the data never comes out.

The failure can be reached because the check of a single part does not look at the length of
its path. An inner node passes as a part, and then the last genuine part fails.

- `Collecting`: what every sequence of calls keeps, with parts from anyone.
- `addPart_atomic_iff`: a call that returns an error changes nothing, exactly if the part is
  not the last one to pass, or the parts together have the root of the header. A set with
  genuine bytes only can be completed.
-/

namespace Leaderberry

open MerkleTree

section atomic

variable [Externals] {ps recv : PartSet} {p : BlockPart} {S : Finset Nat}

/-! ## The counter -/

omit [Externals] in
/-- A part is the last one missing exactly if the counter says so. -/
theorem Counted.missingParts_eq_iff (h : Counted S ps) {i : Nat} (hi : i < ps.total)
    (hnew : i ∉ S) : ps.missingParts = [i] ↔ ps.partsCount + 1 = ps.total := by
  have hnodup : ps.missingParts.Nodup := List.nodup_range.filter _
  have hset : ps.missingParts.toFinset = Finset.range ps.total \ S := by
    ext j
    rw [h.missingParts]
    simp
  have hcard : ps.missingParts.length = ps.total - S.card := by
    rw [← List.toFinset_card_of_nodup hnodup, hset, Finset.card_sdiff_of_subset h.sub,
      Finset.card_range]
  have hmem : i ∈ ps.missingParts := by
    rw [h.missingParts]
    simpa using ⟨hi, hnew⟩
  have hlt : S.card < ps.total := by
    have := List.length_pos_of_mem hmem
    omega
  rw [h.count]
  constructor
  · intro hone
    rw [hone, List.length_singleton] at hcard
    omega
  · intro hcount
    obtain ⟨j, hj⟩ := List.length_eq_one_iff.mp (hcard.trans (by omega))
    rw [hj, List.mem_singleton] at hmem
    rw [hj, hmem]

/-! ## One call -/

theorem addPart_admitted_ne (h : Admits ps p) : (ps.addPart (some p)).1 ≠ ps := by
  intro hsame
  -- the counter tells the two apart
  have hcount : (ps.addPart (some p)).1.partsCount = ps.partsCount + 1 := by
    rw [addPart_admitted_stored h]
    rfl
  rw [hsame] at hcount
  omega

/-- When a part that passes is followed by an error. -/
theorem addPart_admitted_error_iff (h : Admits ps p) : (ps.addPart (some p)).2 ≠ none ↔
    ps.partsCount + 1 = ps.total ∧
      computeMerkleRoot ((ps.store p).collected.map Externals.sha256) ≠ ps.hash := by
  rw [addPart_admitted h]
  by_cases hlast : ps.partsCount + 1 = ps.total
  · rw [if_pos hlast, PartSet.assembleData]
    by_cases hroot : computeMerkleRoot ((ps.store p).collected.map Externals.sha256) = ps.hash
    · have hroot' : computeMerkleRoot ((ps.store p).collected.map Externals.sha256) =
        (ps.store p).hash := hroot
      rw [if_neg (not_not.mpr hroot')]
      exact iff_of_false (fun herror => herror rfl) fun hboth => hboth.2 hroot
    · have hroot' : computeMerkleRoot ((ps.store p).collected.map Externals.sha256) ≠
        (ps.store p).hash := hroot
      rw [if_pos hroot']
      exact iff_of_true (Option.some_ne_none _) ⟨hlast, hroot⟩
  · rw [if_neg hlast]
    exact iff_of_false (fun herror => herror rfl) fun hboth => hlast hboth.1

/-! ## Runs -/

/-- What every sequence of calls keeps: the parts that are there are those counted, and the
data of a complete set is what the assembly made of them. -/
structure Collecting (S : Finset Nat) (ps : PartSet) : Prop extends Counted S ps where
  length : ps.parts.length = ps.total
  stored : ∀ i < ps.total, i ∈ S ↔ ∃ p, ps.parts[i]? = some (some p)
  data : 0 < ps.total → ps.partsCount = ps.total → ps.data = ps.assembled

theorem collecting_empty {header : BlockPartSetHeader}
    (hrecv : newPartSetFromHeader header = .ok recv) :
    Collecting ∅ recv ∧ recv.header = header := by
  unfold newPartSetFromHeader at hrecv
  split at hrecv
  · cases hrecv
  obtain rfl := Except.ok.inj hrecv
  refine ⟨⟨⟨length_emptyBits _, fun i _ => ?_, rfl, Finset.empty_subset _⟩,
    List.length_replicate, fun i hi => ?_, fun hpos hcount => ?_⟩, rfl⟩
  · simpa using hasBit_emptyBits ..
  · simp [List.getElem?_replicate]
  · exact absurd hcount hpos.ne

namespace Collecting

theorem notMem (h : Collecting S ps) (hadmits : Admits ps p) : p.index ∉ S := by
  rw [← decide_eq_false_iff_not, ← h.hasPart hadmits.index]
  exact hadmits.new

/-- A part that passes. -/
theorem addPart_of_admits (h : Collecting S ps) (hadmits : Admits ps p) :
    Collecting (insert p.index S) (ps.addPart (some p)).1 := by
  have hcounted := h.toCounted.store hadmits.index (h.notMem hadmits)
  rw [addPart_admitted_stored hadmits]
  refine ⟨⟨hcounted.words, hcounted.bits, hcounted.count, hcounted.sub⟩, ?_, ?_, ?_⟩
  · exact List.length_set.trans h.length
  · intro i hi
    change _ ↔ ∃ q, (ps.parts.set p.index (some p))[i]? = some (some q)
    rw [Finset.mem_insert, h.stored i hi, List.getElem?_set]
    by_cases heq : p.index = i
    · simp [heq, h.length, show i < ps.total from hi]
    · simp [heq, Ne.symm heq]
  · intro _ hcount
    exact if_pos hcount

theorem addPart (h : Collecting S ps) (part : Option BlockPart) :
    ∃ S', Collecting S' (ps.addPart part).1 := by
  cases part with
  | none => exact ⟨S, h⟩
  | some p =>
    by_cases hadmits : Admits ps p
    · exact ⟨_, h.addPart_of_admits hadmits⟩
    · obtain ⟨e, hrefused⟩ := addPart_refused hadmits
      rw [hrefused]
      exact ⟨S, h⟩

theorem addParts (h : Collecting S ps) (parts : List (Option BlockPart)) :
    ∃ S', Collecting S' (ps.addParts parts) := by
  induction parts generalizing S ps with
  | nil => exact ⟨S, h⟩
  | cons part rest ih =>
    obtain ⟨S', hstep⟩ := h.addPart part
    exact ih hstep

end Collecting

/-! ## The genuine parts -/

/-- The parts of `header`: each passes its own check, and all together have the root. -/
structure Genuine (header : BlockPartSetHeader) (part : Nat → BlockPart) : Prop where
  pos : 0 < header.total
  index : ∀ i < header.total, (part i).index = i
  size : ∀ i < header.total, (part i).bytes.length ≤ blockPartSize
  proof : ∀ i < header.total, verifyMerkleProof (hashBytes (part i).bytes) i (part i).proofPath
    header.hash = true
  root : ∃ h, IsRoot hashPair h ((List.range header.total).map fun i =>
    Externals.sha256 (part i).bytes) header.hash.data

/-- The parts in `S` are there, with the bytes of the genuine ones. -/
structure Receives (header : BlockPartSetHeader) (part : Nat → BlockPart) (S : Finset Nat)
    (ps : PartSet) : Prop extends Collecting S ps where
  header : ps.header = header
  bytes : ∀ i p, ps.parts[i]? = some (some p) → p.bytes = (part i).bytes

namespace Receives

variable {header : BlockPartSetHeader} {part : Nat → BlockPart}

/-- A genuine part is there after its call, and the bytes of the others are as before. -/
theorem addPart (h : Receives header part S ps) (hgenuine : Genuine header part) {i : Nat}
    (hi : i < header.total) :
    Receives header part (insert i S) (ps.addPart (some (part i))).1 := by
  have hindex := hgenuine.index i hi
  have htotal : ps.total = header.total := congrArg BlockPartSetHeader.total h.header
  have hhash : ps.hash = header.hash := congrArg BlockPartSetHeader.hash h.header
  have hhas := h.hasPart (htotal ▸ hi)
  by_cases hmem : i ∈ S
  · -- it is refused as already there
    have hrefused : ¬ Admits ps (part i) := by
      intro hadmits
      have hnew := hadmits.new
      rw [hindex, hhas] at hnew
      exact of_decide_eq_false hnew hmem
    obtain ⟨e, heq⟩ := addPart_refused hrefused
    rw [heq, Finset.insert_eq_of_mem hmem]
    exact h
  · have hadmits : Admits ps (part i) := by
      refine ⟨by rw [hindex, htotal]; exact hi, hgenuine.size i hi, ?_, ?_⟩
      · rw [hindex, hhas]
        exact decide_eq_false hmem
      · rw [PartSet.verifies, hindex, hhash]
        exact hgenuine.proof i hi
    have hcollecting := h.toCollecting.addPart_of_admits hadmits
    rw [hindex] at hcollecting
    refine ⟨hcollecting, (header_addPart _).trans h.header, fun j q hq => ?_⟩
    rw [addPart_admitted_stored hadmits] at hq
    change (ps.parts.set (part i).index (some (part i)))[j]? = some (some q) at hq
    rw [List.getElem?_set, hindex] at hq
    by_cases heq : i = j
    · subst heq
      rw [if_pos rfl, if_pos (by rw [h.length, htotal]; exact hi)] at hq
      cases hq
      rfl
    · rw [if_neg heq] at hq
      exact h.bytes j q hq

theorem addParts (h : Receives header part S ps) (hgenuine : Genuine header part)
    (sent : List Nat) (hsent : ∀ i ∈ sent, i < header.total) :
    Receives header part (S ∪ sent.toFinset)
      (ps.addParts (sent.map fun i => some (part i))) := by
  induction sent generalizing S ps with
  | nil =>
    rw [List.toFinset_nil, Finset.union_empty]
    exact h
  | cons i rest ih =>
    obtain ⟨hi, hrest⟩ := List.forall_mem_cons.mp hsent
    rw [List.toFinset_cons, Finset.union_insert, ← Finset.insert_union]
    exact ih (h.addPart hgenuine hi) hrest

/-- A complete set of genuine bytes returns them. -/
theorem getData (h : Receives header part S ps) (hgenuine : Genuine header part)
    (hall : ∀ i < header.total, i ∈ S) :
    ps.getData = .ok ((List.range header.total).flatMap fun i => (part i).bytes) := by
  have htotal : ps.total = header.total := congrArg BlockPartSetHeader.total h.header
  have hhash : ps.hash = header.hash := congrArg BlockPartSetHeader.hash h.header
  have hcount : ps.partsCount = ps.total := by
    have hrange : Finset.range ps.total ⊆ S :=
      fun i hi => hall i (htotal ▸ Finset.mem_range.mp hi)
    rw [h.count, h.sub.antisymm hrange, Finset.card_range]
  have hcollected : ps.collected = (List.range header.total).map fun i => (part i).bytes := by
    refine List.ext_getElem? fun i => ?_
    rw [PartSet.collected, List.getElem?_map, List.getElem?_map]
    by_cases hi : i < header.total
    · obtain ⟨p, hp⟩ := (h.stored i (htotal ▸ hi)).mp (hall i hi)
      rw [hp, List.getElem?_range hi]
      exact congrArg some (h.bytes i p hp)
    · rw [List.getElem?_eq_none (by rw [h.length, htotal]; exact Nat.not_lt.mp hi),
        List.getElem?_eq_none (by rw [List.length_range]; exact Nat.not_lt.mp hi)]
      rfl
  have hroot : computeMerkleRoot (ps.collected.map Externals.sha256) = ps.hash := by
    obtain ⟨height, hroot⟩ := hgenuine.root
    rw [hcollected, List.map_map, hhash]
    exact computeMerkleRoot_spec hroot
  have hdata : ps.data = some ps.collected.flatten := by
    rw [h.data (htotal ▸ hgenuine.pos) hcount, PartSet.assembled, if_pos hroot]
  rw [PartSet.getData, if_neg (not_not.mpr hcount), hdata, hcollected, List.flatMap_def]

end Receives

/-! ## Atomic calls -/

/-- When an error of one call comes without a change. -/
theorem Collecting.atomic_iff (h : Collecting S ps) (part : Option BlockPart) :
    ((ps.addPart part).2 ≠ none → (ps.addPart part).1 = ps) ↔
      ∀ p, part = some p → p.bytes.length ≤ blockPartSize → ps.verifies p = true →
        ps.missingParts = [p.index] →
        ∃ h, IsRoot hashPair h ((ps.store p).collected.map Externals.sha256) ps.hash.data := by
  rcases part with _ | p
  · exact iff_of_true (fun _ => rfl) (by rintro p ⟨⟩)
  by_cases hadmits : Admits ps p
  · have hlast := h.missingParts_eq_iff hadmits.index (h.notMem hadmits)
    have herror := addPart_admitted_error_iff hadmits
    have hparts : (ps.store p).collected.map Externals.sha256 ≠ [] := by
      refine List.ne_nil_of_length_pos ?_
      rw [List.length_map, PartSet.collected, List.length_map, PartSet.store, List.length_set,
        h.length]
      exact Nat.zero_lt_of_lt hadmits.index
    have hroot := computeMerkleRoot_eq_iff hparts ps.hash
    constructor
    · -- an error would come with a change
      rintro hatomic _ ⟨⟩ _ _ hmissing
      by_contra hnone
      exact addPart_admitted_ne hadmits
        (hatomic (herror.mpr ⟨hlast.mp hmissing, mt hroot.mp hnone⟩))
    · intro hfits hfailed
      obtain ⟨hcount, hne⟩ := herror.mp hfailed
      exact absurd (hroot.mpr (hfits p rfl hadmits.size hadmits.proof (hlast.mpr hcount))) hne
  · obtain ⟨e, hrefused⟩ := addPart_refused hadmits
    refine iff_of_true (fun _ => by rw [hrefused]) ?_
    -- the last one missing with a proof that passes would not be refused
    rintro _ ⟨⟩ hsize hproof hmissing
    have hmem : p.index ∈ ps.missingParts := by rw [hmissing]; exact List.mem_singleton_self _
    obtain ⟨hindex, hnew⟩ := List.mem_filter.mp hmem
    exact absurd ⟨List.mem_range.mp hindex, hsize, by simpa using hnew, hproof⟩ hadmits

/-- The genuine parts complete a set with genuine bytes. -/
theorem Collecting.completes (h : Collecting S ps) {genuine : Nat → BlockPart}
    (hgenuine : Genuine ps.header genuine)
    (hbytes : ∀ i p, ps.getPart i = some p → p.bytes = (genuine i).bytes) :
    (ps.addParts ((List.range ps.total).map fun i => some (genuine i))).getData =
      .ok ((List.range ps.total).flatMap fun i => (genuine i).bytes) := by
  have hreceives : Receives ps.header genuine S ps := by
    refine ⟨h, rfl, fun i p hp => hbytes i p ?_⟩
    have hi : i < ps.total := by
      rw [← h.length]
      exact (List.getElem?_eq_some_iff.mp hp).1
    rw [PartSet.getPart, if_neg (Nat.not_le.mpr hi), List.getD_eq_getElem?_getD, hp]
    rfl
  have hfinal := hreceives.addParts hgenuine (List.range ps.total)
    fun i hi => List.mem_range.mp hi
  refine hfinal.getData hgenuine fun i hi => Finset.mem_union_right _ ?_
  exact List.mem_toFinset.mpr (List.mem_range.mpr hi)

/-- **When `AddPart` is atomic.** After any calls on a set that began with a header, a call
that returns an error leaves the set as it was, exactly if the part is not the last one
missing with a proof that passes, or the hashes of all parts together have the root of the
header. As long as the bytes that are stored are genuine, the genuine parts complete
the set. -/
theorem addPart_atomic_iff {header : BlockPartSetHeader}
    (hrecv : newPartSetFromHeader header = .ok recv) (parts : List (Option BlockPart))
    (hps : ps = recv.addParts parts) :
    (∀ part, ((ps.addPart part).2 ≠ none → (ps.addPart part).1 = ps) ↔
      ∀ p, part = some p → p.bytes.length ≤ blockPartSize → ps.verifies p = true →
        ps.missingParts = [p.index] →
        ∃ h, IsRoot hashPair h ((ps.store p).collected.map Externals.sha256)
          header.hash.data) ∧
    ∀ genuine, Genuine header genuine →
      (∀ i p, ps.getPart i = some p → p.bytes = (genuine i).bytes) →
      (ps.addParts ((List.range header.total).map fun i => some (genuine i))).getData =
        .ok ((List.range header.total).flatMap fun i => (genuine i).bytes) := by
  obtain ⟨hempty, hheader⟩ := collecting_empty hrecv
  obtain ⟨S, hcollecting⟩ := hempty.addParts parts
  rw [← hps] at hcollecting
  obtain rfl : ps.header = header := by rw [hps, header_addParts, hheader]
  exact ⟨hcollecting.atomic_iff, fun _ => hcollecting.completes⟩

end atomic

/-! ## A set that cannot be completed any more -/

section forged

/-- A digest that tells the length of its input and the first byte. -/
@[reducible] def headDigest : Externals :=
  { transparent with sha256 m := fitTo hashSize [Fin.ofNat 256 (m.length % 251), m.headD 0] }

attribute [local instance] headDigest

/-- The root over the two parts `[1]` and `[2]`. -/
def smallRoot : Bytes := hashPair (Externals.sha256 [1]) (Externals.sha256 [2])

/-- The two parts, with their paths. -/
def smallPart : Nat → BlockPart
  | 0 => ⟨0, [1], [⟨Externals.sha256 [2]⟩], ⟨smallRoot⟩⟩
  | _ => ⟨1, [2], [⟨Externals.sha256 [1]⟩], ⟨smallRoot⟩⟩

/-- The node above them as a part, with an empty path. -/
def nodePart : BlockPart := ⟨0, Externals.sha256 [1] ++ Externals.sha256 [2], [], ⟨smallRoot⟩⟩

/-- The receiver of the two parts. -/
def smallSet : PartSet := ⟨2, ⟨smallRoot⟩, [none, none], [0], 0, none⟩

theorem newPartSetFromHeader_small :
    newPartSetFromHeader ⟨2, ⟨smallRoot⟩⟩ = .ok smallSet := by decide +kernel

theorem genuine_smallPart : Genuine ⟨2, ⟨smallRoot⟩⟩ smallPart where
  pos := by decide
  index := by decide
  size := by decide
  proof := by decide +kernel
  root := ⟨1, .level (by decide) (.single _)⟩

/-- The two parts complete the set. After the forged one the genuine part 1 fails and stays,
the genuine part 0 is refused, and there is no data. -/
theorem failed_part_stays :
    newPartSetFromHeader ⟨2, ⟨smallRoot⟩⟩ = .ok smallSet ∧
    Genuine ⟨2, ⟨smallRoot⟩⟩ smallPart ∧
    ((smallSet.addParts [some nodePart]).addPart (some (smallPart 1))).2 ≠ none ∧
    ((smallSet.addParts [some nodePart]).addPart (some (smallPart 1))).1 ≠
      smallSet.addParts [some nodePart] ∧
    (smallSet.addParts [some nodePart, some (smallPart 1)]).addPart (some (smallPart 0)) =
      (smallSet.addParts [some nodePart, some (smallPart 1)], some .alreadyHas) ∧
    (smallSet.addParts [some nodePart, some (smallPart 1)]).getData = .error .assemblyFailed := by
  refine ⟨newPartSetFromHeader_small, genuine_smallPart, ?_, ?_, ?_, ?_⟩
  all_goals decide +kernel

/-- After the genuine part 0 an error for part 1 would change nothing, and the two parts
complete the set. -/
theorem addPart_atomic_genuine :
    (((smallSet.addParts [some (smallPart 0)]).addPart (some (smallPart 1))).2 ≠ none →
      ((smallSet.addParts [some (smallPart 0)]).addPart (some (smallPart 1))).1 =
        smallSet.addParts [some (smallPart 0)]) ∧
    ((smallSet.addParts [some (smallPart 0)]).addParts
      [some (smallPart 0), some (smallPart 1)]).getData = .ok [1, 2] := by
  obtain ⟨hatomic, hcomplete⟩ :=
    addPart_atomic_iff newPartSetFromHeader_small [some (smallPart 0)] rfl
  constructor
  · refine (hatomic (some (smallPart 1))).mpr ?_
    rintro _ ⟨⟩ _ _ _
    exact ⟨1, .level (by decide +kernel) (.single _)⟩
  · refine hcomplete smallPart genuine_smallPart fun i p hp => ?_
    have hget : (smallSet.addParts [some (smallPart 0)]).parts = [some (smallPart 0), none] := by
      decide +kernel
    obtain ⟨-, hpart⟩ := PartSet.getPart_eq_some hp
    rw [hget] at hpart
    rcases i with _ | _ | i
    · cases hpart
      rfl
    · cases hpart
    · cases hpart

end forged

end Leaderberry
