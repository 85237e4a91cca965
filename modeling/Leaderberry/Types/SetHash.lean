import Mathlib.Data.Countable.Basic
import Mathlib.Logic.Equiv.List
import Leaderberry.Lib.KeyedSort
import Leaderberry.Types.Serialization

/-!
# The hash of a validator set (`Hash`)

`Hash` sorts the validators by name, blanks their priorities and hashes the result together
with the total power and the position of the proposer. Of these only the position changes
under rotation. So the hash is the same exactly as long as the proposer is
(`hash_rotated_iff`).

The Cramberry encoder of `ValidatorSetData` is the parameter `marshal`.
-/

namespace Leaderberry

namespace ValidatorSet

variable {vs : ValidatorSet}

/-- The validators in the order in which `Hash` lists them. -/
def sortedByName (vals : List NamedValidator) : List NamedValidator :=
  vals.insertionSort fun a b => accountNameString a.name ≤ accountNameString b.name

/-- The loop of `Hash` that finds the proposer; it is at 0 if it is not found. -/
def positionOf (name : GoString) (vals : List NamedValidator) : Nat :=
  (vals.findIdx? fun v => accountNameString v.name == name).getD 0

/-- What `Hash` encodes. -/
def hashData (vs : ValidatorSet) : ValidatorSetData where
  validators := (sortedByName vs.validators).map fun v => { v with proposerPriority := 0 }
  proposerIndex :=
    match vs.proposer with
    | none => 0
    | some p => positionOf (accountNameString p.name) (sortedByName vs.validators) % 2 ^ 16
  totalPower := vs.totalPower

/-- `Hash`. -/
def hash [Externals] (marshal : ValidatorSetData → Bytes) (vs : ValidatorSet) : Hash :=
  hashBytes (marshal vs.hashData)

/-! ## What rotation leaves -/

/-- Sorting by name does not look at priorities. -/
theorem identity_sortedByName (vals : List NamedValidator) :
    (sortedByName vals).map NamedValidator.identity =
      sortedByName (vals.map NamedValidator.identity) :=
  List.map_insertionSort _ _ _ _ fun _ _ _ _ => Iff.rfl

/-- Neither does the search for a name. -/
theorem positionOf_identity (name : GoString) (vals : List NamedValidator) :
    positionOf name (vals.map NamedValidator.identity) = positionOf name vals := by
  unfold positionOf
  rw [List.findIdx?_map]
  rfl

/-- The position of a proposer among the members. -/
theorem hashData_eq {p : NamedValidator} (hp : vs.proposer = some p) :
    vs.hashData =
      { validators := sortedByName vs.members
        proposerIndex :=
          positionOf (accountNameString p.name) (sortedByName vs.members) % 2 ^ 16
        totalPower := vs.totalPower } := by
  unfold hashData members
  rw [hp, ← identity_sortedByName, positionOf_identity]
  rfl

/-- A name that is there is found, at a position that holds it. -/
theorem getElem?_positionOf {name : GoString} {vals : List NamedValidator}
    (h : name ∈ nameStrings vals) :
    positionOf name vals < vals.length ∧
      (vals[positionOf name vals]?).map (fun v => accountNameString v.name) = some name := by
  obtain ⟨v, hv, hname⟩ := List.mem_map.mp h
  have hsome : (vals.findIdx? fun v => accountNameString v.name == name).isSome := by
    rw [List.findIdx?_isSome, List.any_eq_true]
    exact ⟨v, hv, beq_iff_eq.mpr hname⟩
  obtain ⟨i, hi⟩ := Option.isSome_iff_exists.mp hsome
  obtain ⟨hlt, hfound, -⟩ := List.findIdx?_eq_some_iff_getElem.mp hi
  have hpos : positionOf name vals = i := by rw [positionOf, hi, Option.getD_some]
  rw [hpos, List.getElem?_eq_getElem hlt, Option.map_some]
  exact ⟨hlt, congrArg some (beq_iff_eq.mp hfound)⟩

/-- Two names that are there have the same position only if they are the same. -/
theorem positionOf_inj {name name' : GoString} {vals : List NamedValidator}
    (h : name ∈ nameStrings vals) (h' : name' ∈ nameStrings vals)
    (heq : positionOf name vals = positionOf name' vals) : name = name' := by
  have hget := (getElem?_positionOf h).2
  rw [heq, (getElem?_positionOf h').2] at hget
  exact (Option.some_inj.mp hget).symm

/-- The name of the proposer. -/
def proposerName (vs : ValidatorSet) : Option GoString :=
  vs.proposer.map fun p => accountNameString p.name

/-- The proposer of a settled set is one of its members. -/
theorem exists_proposer (h : Settled vs) :
    ∃ p, vs.proposer = some p ∧
      accountNameString p.name ∈ nameStrings (sortedByName vs.members) := by
  have hne : vs.validators ≠ [] := List.ne_nil_of_length_pos h.wf.nonempty
  obtain ⟨p, hp, hmem, -⟩ := pickProposer_spec hne
  refine ⟨p, h.proposer.trans hp, List.mem_map.mpr ⟨p.identity, ?_, rfl⟩⟩
  exact (List.mem_insertionSort _).mpr (List.mem_map_of_mem hmem)

/-- Sets with the same members and total power are encoded alike exactly when they have the
same proposer. -/
theorem hashData_eq_iff {ws : ValidatorSet} (hvs : Settled vs) (hws : Settled ws)
    (hmembers : ws.members = vs.members) (hpower : ws.totalPower = vs.totalPower) :
    ws.hashData = vs.hashData ↔ ws.proposerName = vs.proposerName := by
  obtain ⟨p, hp, hmem⟩ := exists_proposer hvs
  obtain ⟨q, hq, hmem'⟩ := exists_proposer hws
  rw [hmembers] at hmem'
  -- positions fit into 16 bits
  have hfits : ∀ {name}, name ∈ nameStrings (sortedByName vs.members) →
      positionOf name (sortedByName vs.members) % 2 ^ 16 =
        positionOf name (sortedByName vs.members) := by
    intro name hname
    have hlt := (getElem?_positionOf hname).1
    have hlen : (sortedByName vs.members).length = vs.validators.length := by
      rw [sortedByName, List.length_insertionSort, members, List.length_map]
    have hle := hvs.wf.length_le
    simp only [maxValidators] at hle
    exact Nat.mod_eq_of_lt (by omega)
  rw [hashData_eq hp, hashData_eq hq, hmembers, hpower, proposerName, proposerName, hp, hq,
    Option.map_some, Option.map_some, Option.some_inj]
  constructor
  · intro heq
    have hpos := congrArg ValidatorSetData.proposerIndex heq
    dsimp only at hpos
    rw [hfits hmem, hfits hmem'] at hpos
    exact positionOf_inj hmem' hmem hpos
  · intro hname
    rw [hname]

section

variable [Externals]

/-- **Rotation keeps the hash as long as it keeps the proposer.** The encoder and SHA-256 are
asked to tell apart the two encodings that are compared, and nothing else. -/
theorem hash_rotated_iff (marshal : ValidatorSetData → Bytes)
    {validators : List (Option NamedValidator)} {vs : ValidatorSet}
    (h : newValidatorSet validators = .ok vs) (times : Int)
    (hmarshal : marshal (vs.withIncrementedPriority times).hashData = marshal vs.hashData →
      (vs.withIncrementedPriority times).hashData = vs.hashData)
    (hsha : Externals.sha256 (marshal (vs.withIncrementedPriority times).hashData) =
        Externals.sha256 (marshal vs.hashData) →
      marshal (vs.withIncrementedPriority times).hashData = marshal vs.hashData) :
    (vs.withIncrementedPriority times).members = vs.members ∧
      ((vs.withIncrementedPriority times).hash marshal = vs.hash marshal ↔
        (vs.withIncrementedPriority times).proposerName = vs.proposerName) := by
  have hvs := settled_newValidatorSet h
  have hmembers : (vs.withIncrementedPriority times).members = vs.members :=
    members_withIncrementedPriority vs times
  refine ⟨hmembers, ?_⟩
  rw [← hashData_eq_iff hvs (hvs.withIncrementedPriority times) hmembers
    (totalPower_incrementProposerPriority vs.copy times)]
  constructor
  · intro hhash
    exact hmarshal (hsha (congrArg Hash.data hhash))
  · intro hdata
    exact congrArg (fun data => hashBytes (marshal data)) hdata

end

section

attribute [local instance] transparent

/-- After two increments validator 1 of two equals proposes again. -/
theorem hash_rotated_pair : newValidatorSet (pair 1 1) = .ok (pairSet 1 1) ∧
    ((pairSet 1 1).withIncrementedPriority 2).hash (fun data => [toByte data.proposerIndex]) =
      (pairSet 1 1).hash fun data => [toByte data.proposerIndex] := by
  have hset : newValidatorSet (pair 1 1) = .ok (pairSet 1 1) := rfl
  have hdata : ((pairSet 1 1).withIncrementedPriority 2).hashData = (pairSet 1 1).hashData := by
    decide +kernel
  exact ⟨hset, (hash_rotated_iff (fun data => [toByte data.proposerIndex]) hset 2
    (fun _ => hdata) (fun _ => by rw [hdata])).2.mpr (by decide +kernel)⟩

end

/-! ## An encoding without collisions -/

/-- A set as a tuple of lists and numbers. -/
def dataFields (data : ValidatorSetData) :
    List (Option (List Byte) × Nat × List Byte × Int × Int) × Nat × Int :=
  (data.validators.map fun v =>
    (v.name.name, v.index, v.publicKey.data, v.votingPower, v.proposerPriority),
    data.proposerIndex, data.totalPower)

theorem dataFields_injective : Function.Injective dataFields := by
  intro a b heq
  obtain ⟨hvals, hrest⟩ := Prod.mk.inj heq
  obtain ⟨hindex, hpower⟩ := Prod.mk.inj hrest
  have hinj : Function.Injective fun v : NamedValidator =>
      (v.name.name, v.index, v.publicKey.data, v.votingPower, v.proposerPriority) := by
    rintro ⟨⟨name⟩, index, ⟨key⟩, power, priority⟩ ⟨⟨name'⟩, index', ⟨key'⟩, power', priority'⟩ h
    simp only [Prod.mk.injEq] at h
    obtain ⟨rfl, rfl, rfl, rfl, rfl⟩ := h
    rfl
  cases a
  cases b
  simp only [ValidatorSetData.mk.injEq]
  exact ⟨List.map_injective_iff.mpr hinj hvals, hindex, hpower⟩

/-- There is an encoding into bytes that tells all sets apart. -/
theorem exists_injective_marshal :
    ∃ marshal : ValidatorSetData → Bytes, Function.Injective marshal := by
  obtain ⟨number, hnumber⟩ := exists_injective_nat
    (List (Option (List Byte) × Nat × List Byte × Int × Int) × Nat × Int)
  refine ⟨fun data => List.replicate (number (dataFields data)) 0, fun a b heq => ?_⟩
  have hlen := congrArg List.length heq
  simp only [List.length_replicate] at hlen
  exact dataFields_injective (hnumber hlen)

/-- With an encoding and a digest that have no collisions at all, one increment changes the
hash of a set of two equal validators. -/
theorem hash_rotated_changes :
    ∃ (ext : Externals) (marshal : ValidatorSetData → Bytes),
      Function.Injective ext.sha256 ∧ Function.Injective marshal ∧
      newValidatorSet (pair 1 1) = .ok (pairSet 1 1) ∧
      ((pairSet 1 1).withIncrementedPriority 1).hash marshal ≠ (pairSet 1 1).hash marshal := by
  obtain ⟨marshal, hmarshal⟩ := exists_injective_marshal
  refine ⟨{ transparent with sha256 := id }, marshal, Function.injective_id, hmarshal, rfl, ?_⟩
  intro hhash
  have hdata := hmarshal (congrArg Hash.data hhash)
  have hne : ((pairSet 1 1).withIncrementedPriority 1).hashData ≠ (pairSet 1 1).hashData := by
    decide +kernel
  exact hne hdata

end ValidatorSet

end Leaderberry
