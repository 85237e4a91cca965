import Leaderberry.Types.PowerArithmetic
import Leaderberry.Engine.ValidatorUpdates

/-!
# The representation of validator sets

A `ValidatorSet` keeps one thing five times: the list, the two maps, the total power and the
proposer. `NewValidatorSet` and `Copy` rebuild them separately, and the priority updates change
the validators under the maps.

`Derived` are the sets that the engine can get to: new ones, copies, rotated ones and those
that `applyValidatorUpdates` makes. `Represented` says that their parts fit together. What a
step has to keep is `Settled`, from the serialization, and that the name map leads to the
positions of the names (`Positions`). All of it but the proposer speaks of the members only,
which no rotation changes.
-/

namespace Leaderberry

variable {vs : ValidatorSet}

/-! ## The name map -/

/-- The map leads from a name to its position, and knows no other names. -/
def Positions (names : List GoString) (byName : GoMap GoString Nat) : Prop :=
  ∀ name pos, byName.lookup name = some pos ↔ names[pos]? = some name

theorem positions_nil : Positions [] ∅ := by
  intro name pos
  simp

/-- A new name goes to the end. -/
theorem Positions.concat {names : List GoString} {byName : GoMap GoString Nat}
    (h : Positions names byName) {name : GoString} (hnew : name ∉ names) :
    Positions (names ++ [name]) (byName.insert name names.length) := by
  intro other pos
  by_cases hother : other = name
  · subst hother
    rw [AList.lookup_insert, Option.some.injEq]
    constructor
    · rintro rfl
      rw [List.getElem?_concat_length]
    · intro hpos
      rcases Nat.lt_or_ge pos names.length with hlt | hge
      · -- an old position has an old name
        rw [List.getElem?_append_left hlt] at hpos
        exact absurd (List.mem_of_getElem? hpos) hnew
      · have hlt := (List.getElem?_eq_some_iff.mp hpos).1
        rw [List.length_append, List.length_singleton] at hlt
        omega
  · rw [AList.lookup_insert_ne hother, h other pos]
    rcases Nat.lt_trichotomy pos names.length with hlt | rfl | hgt
    · rw [List.getElem?_append_left hlt]
    · rw [List.getElem?_concat_length, List.getElem?_eq_none le_rfl, Option.some.injEq]
      exact iff_of_false (by simp) (Ne.symm hother)
    · rw [List.getElem?_eq_none hgt.le, List.getElem?_eq_none]
      rw [List.length_append, List.length_singleton]
      omega

/-- The map of the copy-and-validate loop. -/
theorem positions_addValidators {validators : List (Option NamedValidator)} {built : ValidatorSet}
    (h : addValidators 0 validators ValidatorSet.empty = .ok built) :
    Positions (nameStrings built.validators) built.byName := by
  refine (addValidators_rule
    (P := fun i vs => vs.validators.length = i ∧ Positions (nameStrings vs.validators) vs.byName)
    validators 0 _ built h ⟨rfl, positions_nil⟩ ?_).2
  rintro i v vs - - ⟨hlen, hvs⟩ hv
  refine ⟨by rw [ValidatorSet.push, List.length_append, hlen, List.length_singleton], ?_⟩
  have hnew : accountNameString v.name ∉ nameStrings vs.validators := by
    intro hmem
    obtain ⟨pos, hpos, hget⟩ := List.mem_iff_getElem.mp hmem
    have hlookup := (hvs _ pos).mpr (by rw [List.getElem?_eq_getElem hpos, hget])
    rw [hv.new] at hlookup
    cases hlookup
  have hconcat := hvs.concat hnew
  rw [show (nameStrings vs.validators).length = i from (List.length_map _).trans hlen] at hconcat
  show Positions (nameStrings (vs.validators ++ [_])) _
  rw [nameStrings, List.map_append]
  exact hconcat

/-- The map that `Copy` rebuilds. -/
theorem positions_reindex : ∀ (rest seen : List NamedValidator) (byName : GoMap GoString Nat)
    (byIndex : GoMap Nat Nat), (nameStrings (seen ++ rest)).Nodup →
    Positions (nameStrings seen) byName →
    Positions (nameStrings (seen ++ rest))
      (ValidatorSet.reindex seen.length rest (byName, byIndex)).1
  | [], seen, byName, byIndex, _, hseen => by
    rw [List.append_nil]
    exact hseen
  | v :: rest, seen, byName, byIndex, hnodup, hseen => by
    have hsplit : seen ++ v :: rest = (seen ++ [v]) ++ rest := by simp
    rw [hsplit] at hnodup ⊢
    have hnew : accountNameString v.name ∉ nameStrings seen := by
      have hfirst := hnodup.sublist ((List.sublist_append_left (seen ++ [v]) rest).map _)
      rw [List.map_append, List.nodup_append] at hfirst
      exact fun hmem => hfirst.2.2 _ hmem _ (List.mem_cons_self ..) rfl
    have hconcat := hseen.concat hnew
    rw [show (nameStrings seen).length = seen.length from List.length_map _] at hconcat
    have hrest := positions_reindex rest (seen ++ [v])
      (byName.insert (accountNameString v.name) seen.length)
      (byIndex.insert v.index seen.length) hnodup (by
        rw [nameStrings, List.map_append]
        exact hconcat)
    rwa [List.length_append, List.length_singleton] at hrest

/-! ## What the sets have in common -/

/-- The sets that the engine can get to. -/
inductive Derived [Externals] : ValidatorSet → Prop
  | new {validators : List (Option NamedValidator)} {vs : ValidatorSet}
      (ok : newValidatorSet validators = .ok vs) : Derived vs
  | copy {vs : ValidatorSet} (before : Derived vs) : Derived vs.copy
  | rotate {vs : ValidatorSet} (before : Derived vs) (times : Int) :
      Derived (vs.withIncrementedPriority times)
  | update {vs ws : ValidatorSet} (before : Derived vs) (order : MapOrder)
      (updates : List ValidatorUpdate)
      (ok : applyValidatorUpdatesIn order vs updates = .ok ws) : Derived ws

/-- The parts of a set fit together. -/
structure Represented (vs : ValidatorSet) : Prop where
  nonempty : 1 ≤ vs.validators.length
  length_le : vs.validators.length ≤ maxValidators
  name_ne : ∀ v ∈ vs.validators, accountNameString v.name ≠ []
  names_nodup : (vs.validators.map fun v => accountNameString v.name).Nodup
  index_eq : ∀ (i : Nat) v, vs.validators[i]? = some v → v.index = i
  byName_iff : ∀ name pos, vs.byName.lookup name = some pos ↔
    ∃ v, vs.validators[pos]? = some v ∧ accountNameString v.name = name
  byIndex_iff : ∀ index pos, vs.byIndex.lookup index = some pos ↔
    ∃ v, vs.validators[pos]? = some v ∧ v.index = index
  power_pos : ∀ v ∈ vs.validators, 0 < v.votingPower
  total_eq : vs.totalPower = (vs.validators.map NamedValidator.votingPower).sum
  total_le : vs.totalPower ≤ maxTotalVotingPower
  proposer : ∃ p, vs.proposer = some p ∧ p ∈ vs.validators ∧ ∀ v ∈ vs.validators, v ≠ p →
    v.proposerPriority < p.proposerPriority ∨
      v.proposerPriority = p.proposerPriority ∧
        accountNameString p.name < accountNameString v.name

/-- What every step keeps. -/
structure Aligned (vs : ValidatorSet) : Prop extends Settled vs where
  positions : Positions (nameStrings vs.validators) vs.byName

/-- The map of a well-formed set leads from an index to its position. -/
theorem ValidatorSet.Wf.byIndex_iff (h : vs.Wf) (index pos : Nat) :
    vs.byIndex.lookup index = some pos ↔
      ∃ v, vs.validators[pos]? = some v ∧ v.index = index := by
  rw [h.byIndex_eq]
  constructor
  · intro hlookup
    split at hlookup
    · rename_i hlt
      cases hlookup
      have hget := List.getElem?_eq_getElem hlt
      exact ⟨_, hget, h.index_eq _ _ hget⟩
    · cases hlookup
  · rintro ⟨v, hget, rfl⟩
    rw [h.index_eq pos v hget, if_pos (List.getElem?_eq_some_iff.mp hget).1]

/-- Of two validators of a named set with the same name there is only one. -/
theorem Named.eq_of_name {vals : List NamedValidator} (h : Named vals) {v w : NamedValidator}
    (hv : v ∈ vals) (hw : w ∈ vals) (hname : accountNameString v.name = accountNameString w.name) :
    v = w :=
  List.inj_on_of_nodup_map h.nodup hv hw hname

theorem Aligned.represented (h : Aligned vs) : Represented vs where
  nonempty := h.wf.nonempty
  length_le := h.wf.length_le
  name_ne v hv := by
    have hname := h.named.nonempty v hv
    rw [isAccountNameEmpty, beq_eq_false_iff_ne] at hname
    exact hname
  names_nodup := h.named.nodup
  index_eq := h.wf.index_eq
  byName_iff name pos := by
    rw [h.positions name pos, nameStrings, List.getElem?_map, Option.map_eq_some_iff]
  byIndex_iff := h.wf.byIndex_iff
  power_pos := h.wf.power_pos
  total_eq := h.wf.total_eq
  total_le := h.wf.total_le
  proposer := by
    have hne : vs.validators ≠ [] := List.ne_nil_of_length_pos h.wf.nonempty
    obtain ⟨p, hp, hmem, hfirst⟩ := ValidatorSet.pickProposer_first hne
    refine ⟨p, h.proposer.trans hp, hmem, fun v hv hvp => ?_⟩
    have hbefore := mt ValidatorSet.proposerBefore_iff.mpr (hfirst v hv)
    rw [not_or, not_and] at hbefore
    obtain ⟨hpriority, hname⟩ := hbefore
    rcases lt_or_eq_of_le (not_lt.mp hpriority) with hlt | heq
    · exact .inl hlt
    · -- equal priorities: the names differ, and that of the proposer is the smaller one
      have hdiff : accountNameString p.name ≠ accountNameString v.name := fun hsame =>
        hvp (h.named.eq_of_name hmem hv hsame).symm
      exact .inr ⟨heq, lt_of_le_of_ne (not_lt.mp (hname heq)) hdiff⟩

/-! ## The steps -/

theorem aligned_newValidatorSet {validators : List (Option NamedValidator)}
    (h : newValidatorSet validators = .ok vs) : Aligned vs := by
  obtain ⟨-, -, built, hadd, hinit⟩ := newValidatorSet_ok h
  refine ⟨settled_newValidatorSet h, ?_⟩
  rw [hinit.byName, nameStrings_of_members hinit.members]
  exact positions_addValidators hadd

/-- `Copy` finds the proposer again through the index map. -/
theorem Settled.proposer_copy (h : Settled vs) :
    vs.copy.proposer = vs.proposer := by
  have hne : vs.validators ≠ [] := List.ne_nil_of_length_pos h.wf.nonempty
  obtain ⟨p, hp, hmem, -⟩ := ValidatorSet.pickProposer_first hne
  obtain ⟨i, hi, hget⟩ := List.mem_iff_getElem.mp hmem
  have hget : vs.validators[i]? = some p := by rw [List.getElem?_eq_getElem hi, hget]
  have hlookup : vs.copy.byIndex.lookup p.index = some i :=
    (h.wf.copy.byIndex_iff p.index i).mpr ⟨p, hget, rfl⟩
  have hproposer := h.proposer.trans hp
  unfold ValidatorSet.copy at hlookup ⊢
  dsimp only at hlookup ⊢
  rw [hproposer]
  dsimp only
  rw [hlookup, Option.bind_some, hget]

theorem Aligned.copy (h : Aligned vs) : Aligned vs.copy where
  wf := h.wf.copy
  named := h.named
  proposer := h.proposer_copy.trans h.proposer
  positions := positions_reindex vs.validators [] ∅ ∅ h.named.nodup positions_nil

theorem Aligned.withIncrementedPriority (h : Aligned vs) (times : Int) :
    Aligned (vs.withIncrementedPriority times) where
  toSettled := h.toSettled.withIncrementedPriority times
  positions := by
    have hmembers := ValidatorSet.members_withIncrementedPriority vs times
    have hbyName : (vs.withIncrementedPriority times).byName = vs.copy.byName := by
      unfold ValidatorSet.withIncrementedPriority ValidatorSet.incrementProposerPriority
      split
      · rfl
      · rfl
    rw [hbyName, nameStrings_of_members hmembers]
    exact h.copy.positions

section

variable [Externals]

/-- `applyValidatorUpdates` ends with a new set that is rotated once. -/
theorem aligned_applyValidatorUpdatesIn {order : MapOrder} {vs ws : ValidatorSet}
    {updates : List ValidatorUpdate} (h : applyValidatorUpdatesIn order vs updates = .ok ws) :
    Aligned ws := by
  unfold applyValidatorUpdatesIn at h
  dsimp only at h
  split at h
  · cases h
  split at h
  · cases h
  rename_i set hset
  cases h
  exact (aligned_newValidatorSet hset).withIncrementedPriority 1

theorem Derived.aligned {vs : ValidatorSet} (h : Derived vs) : Aligned vs := by
  induction h with
  | new ok => exact aligned_newValidatorSet ok
  | copy before ih => exact ih.copy
  | rotate before times ih => exact ih.withIncrementedPriority times
  | update before order updates ok ih => exact aligned_applyValidatorUpdatesIn ok

/-- **The representation of validator sets.** The parts of every set that the engine can get
to fit together; and whatever `int64` powers `NewValidatorSet` is given, its running check
does not overflow. -/
theorem derived_represented :
    (∀ vs, Derived vs → Represented vs) ∧
    ∀ validators : List (Option NamedValidator),
      (∀ v, some v ∈ validators → minInt64 ≤ v.votingPower ∧ v.votingPower ≤ maxInt64) →
        ValidatorSet.Exact.addValidators 0 validators ValidatorSet.empty =
          some (addValidators 0 validators ValidatorSet.empty) := by
  constructor
  · exact fun vs hvs => hvs.aligned.represented
  · exact fun validators hint64 =>
      ValidatorSet.addValidators_exact validators 0 _ le_rfl fun v hv => (hint64 v hv).2

end

section

attribute [local instance] transparent

/-- A copy of a set that was rotated twice, and powers at the end of the range. -/
theorem derived_represented_pair :
    Represented ((ValidatorSet.pairSet 1 2).withIncrementedPriority 2).copy ∧
      ValidatorSet.Exact.addValidators 0 (ValidatorSet.pair 1 maxInt64) ValidatorSet.empty =
        some (.error .totalPowerOverflow) := by
  have hset : newValidatorSet (ValidatorSet.pair 1 2) = .ok (ValidatorSet.pairSet 1 2) := rfl
  refine ⟨derived_represented.1 _ (.copy (.rotate (.new hset) 2)), ?_⟩
  refine (derived_represented.2 (ValidatorSet.pair 1 maxInt64) ?_).trans rfl
  simp [ValidatorSet.pair, minInt64, maxInt64]

end

end Leaderberry
