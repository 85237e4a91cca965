import Leaderberry.Types.Rotation

/-!
# Validator sets as data (`ToData`, `ValidatorSetFromData`)

A set is written out with its priorities and read back through `NewValidatorSet`, which
gives fresh priorities to a set whose priorities are all zero. Such priorities are not only
those of a set that never had any: rotation can return to them.

- `Rotated`: the sets that consensus gets from `NewValidatorSet` and
  `WithIncrementedPriority`.
- `restored_iff`: reading back what was written gives the same set, with the same schedule
  of proposers, except when all priorities are zero and the powers differ.
-/

namespace Leaderberry

variable {vs : ValidatorSet}

/-- `ValidatorSetData`. -/
structure ValidatorSetData where
  validators : List NamedValidator
  proposerIndex : Nat
  totalPower : Int
deriving DecidableEq

/-- `ToData`. -/
def ValidatorSet.toData (vs : ValidatorSet) : ValidatorSetData where
  validators := vs.validators
  proposerIndex :=
    match vs.proposer with
    | some proposer => proposer.index
    | none => 0
  totalPower := vs.totalPower

/-- `ValidatorSetFromData`. -/
def validatorSetFromData (data : ValidatorSetData) : Except ValidatorSetError ValidatorSet :=
  match newValidatorSet (data.validators.map some) with
  | .error e => .error e
  | .ok vs =>
    if data.proposerIndex < vs.validators.length then
      .ok { vs with proposer := vs.validators[data.proposerIndex]? }
    else .ok vs

/-! ## Names -/

/-- The names by which `NewValidatorSet` tells validators apart. -/
def nameStrings (vals : List NamedValidator) : List GoString :=
  vals.map fun v => accountNameString v.name

/-- No name is empty or used twice. -/
structure Named (vals : List NamedValidator) : Prop where
  nonempty : ∀ v ∈ vals, isAccountNameEmpty v.name = false
  nodup : (nameStrings vals).Nodup

theorem nameStrings_of_members {vals vals' : List NamedValidator}
    (hmembers : vals'.map NamedValidator.identity = vals.map NamedValidator.identity) :
    nameStrings vals' = nameStrings vals := by
  have hmap := congrArg (List.map fun v => accountNameString v.name) hmembers
  rwa [List.map_map, List.map_map] at hmap

theorem Named.of_members {vals vals' : List NamedValidator} (hnamed : Named vals)
    (hmembers : vals'.map NamedValidator.identity = vals.map NamedValidator.identity) :
    Named vals' := by
  refine ⟨fun v hv => ?_, nameStrings_of_members hmembers ▸ hnamed.nodup⟩
  have hmem : v.identity ∈ vals.map NamedValidator.identity :=
    hmembers ▸ List.mem_map_of_mem hv
  obtain ⟨w, hw, heq⟩ := List.mem_map.mp hmem
  have hname : w.identity.name = v.identity.name := by rw [heq]
  have hw := hnamed.nonempty w hw
  exact hname ▸ hw

/-- The name map of the copy-and-validate loop holds the names seen so far. -/
def SeenNames (vs : ValidatorSet) : Prop :=
  ∀ name, (vs.byName.lookup name).isSome ↔ name ∈ nameStrings vs.validators

theorem SeenNames.insert (hseen : SeenNames vs) (v : NamedValidator) (i j : Nat) (power : Int)
    (byIndex : GoMap Nat Nat) :
    SeenNames
      { vs with
        validators := vs.validators ++ [{ v with index := j }]
        byName := vs.byName.insert (accountNameString v.name) i
        byIndex
        totalPower := power } := by
  intro name
  simp only [nameStrings, List.map_append, List.map_singleton, List.mem_append,
    List.mem_singleton]
  by_cases hname : name = accountNameString v.name
  · subst hname
    simp
  · rw [AList.lookup_insert_ne hname, hseen name]
    simp [hname, nameStrings]

/-- The loop only lets through names that are not empty and not yet there. -/
theorem Named.push (hnamed : Named vs.validators) (hseen : SeenNames vs) {v : NamedValidator}
    (hv : Acceptable v vs) (i : Nat) : Named (vs.push i v).validators := by
  refine ⟨fun w hw => ?_, ?_⟩
  · rcases List.mem_append.mp hw with hw | hw
    · exact hnamed.nonempty w hw
    · rw [List.mem_singleton.mp hw]
      exact hv.name
  · show (nameStrings (vs.validators ++ [_])).Nodup
    rw [nameStrings, List.map_append, List.map_singleton, List.nodup_append]
    refine ⟨hnamed.nodup, List.nodup_singleton _, fun a ha b hb => ?_⟩
    rw [List.mem_singleton.mp hb]
    rintro rfl
    have hsome := (hseen _).mpr ha
    rw [hv.new] at hsome
    cases hsome

theorem named_addValidators {validators : List (Option NamedValidator)} {built : ValidatorSet}
    (h : addValidators 0 validators ValidatorSet.empty = .ok built) : Named built.validators := by
  have hstart : SeenNames ValidatorSet.empty ∧ Named ValidatorSet.empty.validators :=
    ⟨fun name => by simp [nameStrings, ValidatorSet.empty], by simp [ValidatorSet.empty],
      List.nodup_nil⟩
  exact (addValidators_rule (P := fun _ vs => SeenNames vs ∧ Named vs.validators) validators 0 _
    built h hstart fun j v ws _ _ hws hv =>
      ⟨hws.1.insert v j _ _ _, hws.2.push hws.1 hv j⟩).2

/-! ## Sets that rotation reaches -/

/-- A set made by `NewValidatorSet` from `validators` and rotated any number of times. -/
inductive Rotated (validators : List (Option NamedValidator)) : ValidatorSet → Prop
  | new {vs : ValidatorSet} (ok : newValidatorSet validators = .ok vs) : Rotated validators vs
  | rotate {vs : ValidatorSet} (before : Rotated validators vs) (times : Int) :
      Rotated validators (vs.withIncrementedPriority times)

/-- What the sets have in common: they are well formed and named, and the proposer is the
one `getProposer` picks. -/
structure Settled (vs : ValidatorSet) : Prop where
  wf : vs.Wf
  named : Named vs.validators
  proposer : vs.proposer = ValidatorSet.pickProposer vs.validators

theorem settled_newValidatorSet {validators : List (Option NamedValidator)}
    (h : newValidatorSet validators = .ok vs) : Settled vs := by
  obtain ⟨-, -, built, hadd, hinit⟩ := newValidatorSet_ok h
  exact ⟨wf_newValidatorSet h, (named_addValidators hadd).of_members hinit.members,
    hinit.proposer⟩

theorem Settled.withIncrementedPriority (hvs : Settled vs) (times : Int) :
    Settled (vs.withIncrementedPriority times) where
  wf := hvs.wf.withIncrementedPriority times
  named := hvs.named.of_members (ValidatorSet.members_withIncrementedPriority vs times)
  proposer := by
    have hlen : vs.copy.validators.length ≠ 0 := hvs.wf.copy.nonempty.ne'
    rw [ValidatorSet.withIncrementedPriority, ValidatorSet.incrementProposerPriority,
      if_neg hlen]

theorem Rotated.settled {validators : List (Option NamedValidator)} (hvs : Rotated validators vs) :
    Settled vs := by
  induction hvs with
  | new ok => exact settled_newValidatorSet ok
  | rotate before times ih => exact ih.withIncrementedPriority times

/-! ## Reading back -/

/-- The loop accepts validators that carry their own positions and adds them as they are. -/
theorem addValidators_ok : ∀ (vals : List NamedValidator) (vs : ValidatorSet),
    vs.validators.length + vals.length ≤ maxValidators → SeenNames vs →
    Named (vs.validators ++ vals) → (∀ v ∈ vals, 0 < v.votingPower) →
    (∀ (j : Nat) v, vals[j]? = some v → v.index = vs.validators.length + j) →
    vs.totalPower + (vals.map NamedValidator.votingPower).sum ≤ maxTotalVotingPower →
    ∃ vs', addValidators vs.validators.length (vals.map some) vs = .ok vs' ∧
      vs'.validators = vs.validators ++ vals ∧
      vs'.totalPower = vs.totalPower + (vals.map NamedValidator.votingPower).sum
  | [], vs, _, _, _, _, _, _ => ⟨vs, rfl, by simp, by simp⟩
  | v :: rest, vs, hlen, hseen, hnamed, hpos, hindex, htotal => by
    obtain ⟨hv, hrest⟩ := List.forall_mem_cons.mp hpos
    rw [List.length_cons] at hlen
    rw [List.map_cons, List.sum_cons] at htotal
    have hsum : 0 ≤ (rest.map NamedValidator.votingPower).sum :=
      List.sum_nonneg (by simpa using fun w hw => (hrest w hw).le)
    have hmod : vs.validators.length % 2 ^ 16 = vs.validators.length :=
      Nat.mod_eq_of_lt (by simp only [maxValidators] at hlen; omega)
    have hposition : v.index = vs.validators.length := hindex 0 v rfl
    have hself : { v with index := vs.validators.length } = v := by rw [← hposition]
    have hname : isAccountNameEmpty v.name = false :=
      hnamed.nonempty v (List.mem_append_right _ (List.mem_cons_self ..))
    have hnew : (vs.byName.lookup (accountNameString v.name)).isSome = false := by
      rw [Bool.eq_false_iff, Ne, hseen]
      have hnodup := hnamed.nodup
      rw [nameStrings, List.map_append, List.nodup_append] at hnodup
      exact fun hmem => hnodup.2.2 _ hmem _ (List.mem_cons_self ..) rfl
    -- One round of the loop, then the rest of the list.
    rw [List.map_cons, addValidators, hname, hnew, hmod, hself]
    rw [if_neg Bool.false_ne_true, if_neg (by omega), if_neg Bool.false_ne_true,
      if_neg (by omega)]
    have hseen' := hseen.insert v vs.validators.length vs.validators.length
      (vs.totalPower + v.votingPower) (vs.byIndex.insert vs.validators.length vs.validators.length)
    rw [hself] at hseen'
    have hlength : (vs.validators ++ [v]).length = vs.validators.length + 1 := by simp
    have hindex' (j : Nat) (w : NamedValidator) (hw : rest[j]? = some w) :
        w.index = (vs.validators ++ [v]).length + j := by
      have := hindex (j + 1) w hw
      omega
    obtain ⟨vs', hadd, hvals, hpower⟩ := addValidators_ok rest _
      (by dsimp only; omega) hseen' (by simpa using hnamed) hrest hindex' (by dsimp only; omega)
    rw [hlength] at hadd
    refine ⟨vs', hadd, by simpa using hvals, ?_⟩
    rw [hpower, List.map_cons, List.sum_cons, add_assoc]

/-- `NewValidatorSet` on the validators of a settled set: everything is kept, except that
priorities that are all zero are initialised. -/
theorem newValidatorSet_validators (hvs : Settled vs) :
    ∃ ws, newValidatorSet (vs.validators.map some) = .ok ws ∧
      ws.validators = (if vs.validators.all (·.proposerPriority == 0) then
        ValidatorSet.initProposerPriorities vs.validators else vs.validators) ∧
      ws.totalPower = vs.totalPower := by
  have hwf := hvs.wf
  obtain ⟨vs', hadd, hvals, hpower⟩ := addValidators_ok vs.validators
    { validators := [], proposer := none, totalPower := 0, byName := ∅, byIndex := ∅ }
    (by simpa using hwf.length_le) (fun name => by simp [nameStrings]) (by simpa using hvs.named)
    hwf.power_pos (by simpa using hwf.index_eq) (by simpa [← hwf.total_eq] using hwf.total_le)
  simp only [List.length_nil, List.nil_append, zero_add] at hadd hvals hpower
  rw [newValidatorSet, if_neg (by simpa using hwf.nonempty.ne'),
    if_neg (by simpa using hwf.length_le), hadd]
  refine ⟨_, rfl, ?_, ?_⟩
  · dsimp only
    rw [hvals]
  · rw [hpower, hwf.total_eq]

/-- Fresh priorities are all zero exactly when the powers are equal. -/
theorem initProposerPriorities_eq_self_iff (hwf : vs.Wf)
    (hzero : ∀ v ∈ vs.validators, v.proposerPriority = 0) :
    ValidatorSet.initProposerPriorities vs.validators = vs.validators ↔
      ∀ v ∈ vs.validators, ∀ w ∈ vs.validators, v.votingPower = w.votingPower := by
  have hsum : (vs.validators.map NamedValidator.votingPower).sum ≤ maxTotalVotingPower :=
    hwf.total_eq ▸ hwf.total_le
  rw [ValidatorSet.initProposerPriorities_eq hwf.power_pos hsum, ← hwf.total_eq]
  constructor
  · intro hself v hv w hw
    have hpower (u : NamedValidator) (hu : u ∈ vs.validators) :
        u.votingPower = vs.totalPower / vs.validators.length := by
      obtain ⟨i, hi, rfl⟩ := List.mem_iff_getElem.mp hu
      have hget := congrArg (fun l => (l[i]?).map NamedValidator.proposerPriority) hself
      simp only [List.getElem?_map, List.getElem?_eq_getElem hi, Option.map_some,
        Option.some.injEq, hzero _ hu] at hget
      omega
    rw [hpower v hv, hpower w hw]
  · intro hequal
    conv_rhs => rw [← List.map_id vs.validators]
    refine List.map_congr_left fun v hv => ?_
    have hall : vs.validators.map NamedValidator.votingPower =
        List.replicate vs.validators.length v.votingPower :=
      List.map_eq_replicate_iff.mpr fun w hw => hequal w hw v hv
    have hlen : (vs.validators.length : Int) ≠ 0 := by
      exact_mod_cast hwf.nonempty.ne'
    have havg : vs.totalPower / vs.validators.length = v.votingPower := by
      rw [hwf.total_eq, hall, List.sum_replicate, nsmul_eq_mul, mul_comm]
      exact Int.mul_ediv_cancel _ hlen
    rw [havg, sub_self, ← hzero v hv]
    rfl

/-- The schedule of proposers depends on the validators, the total power and the proposer. -/
theorem getProposerForRound_congr {ws : ValidatorSet} (hvals : ws.validators = vs.validators)
    (hpower : ws.totalPower = vs.totalPower) (hproposer : ws.proposer = vs.proposer) (round : Int) :
    ws.getProposerForRound round = vs.getProposerForRound round := by
  unfold ValidatorSet.getProposerForRound ValidatorSet.withIncrementedPriority
    ValidatorSet.incrementProposerPriority ValidatorSet.copy
  dsimp only
  rw [hvals, hpower, hproposer]

/-- `ws` is `vs` as far as consensus can tell: validators with their indices, powers and
priorities, the total power, the proposer, and the proposers of all rounds. -/
def SameSchedule (vs ws : ValidatorSet) : Prop :=
  ws.validators = vs.validators ∧ ws.totalPower = vs.totalPower ∧ ws.proposer = vs.proposer ∧
    ∀ round, ws.getProposerForRound round = vs.getProposerForRound round

/-- The proposer of a settled set stands at its own index. -/
theorem Settled.proposer_eq (hvs : Settled vs) :
    vs.toData.proposerIndex < vs.validators.length ∧
      vs.validators[vs.toData.proposerIndex]? = vs.proposer := by
  have hne : vs.validators ≠ [] := List.ne_nil_of_length_pos hvs.wf.nonempty
  obtain ⟨p, hp, hmem, -⟩ := ValidatorSet.pickProposer_spec hne
  obtain ⟨i, hi, hget⟩ := List.mem_iff_getElem.mp hmem
  have hget : vs.validators[i]? = some p := by rw [List.getElem?_eq_getElem hi, hget]
  have hindex := hvs.wf.index_eq i p hget
  have hproposer := hvs.proposer.trans hp
  have hdata : vs.toData.proposerIndex = i := by
    rw [ValidatorSet.toData, hproposer]
    exact hindex
  rw [hdata, hproposer]
  exact ⟨hi, hget⟩

/-- **Reading back a set that rotation reached.** It always succeeds. It gives the same set
and the same schedule of proposers, unless all priorities are zero and not all validators
have the same power: then the priorities are initialised again. -/
theorem restored_iff {validators : List (Option NamedValidator)} {vs : ValidatorSet}
    (hvs : Rotated validators vs) :
    ∃ ws, validatorSetFromData vs.toData = .ok ws ∧
      (SameSchedule vs ws ↔ (∃ v ∈ vs.validators, v.proposerPriority ≠ 0) ∨
        ∀ v ∈ vs.validators, ∀ w ∈ vs.validators, v.votingPower = w.votingPower) := by
  have hsettled := hvs.settled
  obtain ⟨hlt, hget⟩ := hsettled.proposer_eq
  obtain ⟨ws, hnew, hvals, hpower⟩ := newValidatorSet_validators hsettled
  have hlen : ws.validators.length = vs.validators.length := by
    rw [hvals]
    split
    · simp [ValidatorSet.initProposerPriorities, ValidatorSet.centerPriorities]
    · rfl
  refine ⟨{ ws with proposer := ws.validators[vs.toData.proposerIndex]? }, ?_, ?_⟩
  · have hdata : vs.toData.validators = vs.validators := rfl
    rw [validatorSetFromData, hdata, hnew]
    exact if_pos (hlen ▸ hlt)
  have hsame (heq : ws.validators = vs.validators) :
      SameSchedule vs { ws with proposer := ws.validators[vs.toData.proposerIndex]? } := by
    have hproposer : ws.validators[vs.toData.proposerIndex]? = vs.proposer := heq ▸ hget
    exact ⟨heq, hpower, hproposer, getProposerForRound_congr heq hpower hproposer⟩
  by_cases hall : vs.validators.all (·.proposerPriority == 0)
  · have hzero : ∀ v ∈ vs.validators, v.proposerPriority = 0 := by simpa using hall
    have hinit := initProposerPriorities_eq_self_iff hsettled.wf hzero
    rw [if_pos hall] at hvals
    constructor
    · exact fun hschedule => .inr (hinit.mp (hvals.symm.trans hschedule.1))
    · rintro (⟨v, hv, hne⟩ | hequal)
      · exact absurd (hzero v hv) hne
      · exact hsame (hvals.trans (hinit.mpr hequal))
  · rw [if_neg hall] at hvals
    have hnonzero : ∃ v ∈ vs.validators, v.proposerPriority ≠ 0 := by simpa using hall
    exact iff_of_true (hsame hvals) (.inl hnonzero)

/-- Powers 3 and 1: after one rotation all priorities are zero. Read back, the set starts
over with priorities 1 and -1, and the proposer of round 1 is another one. -/
theorem schedule_changed :
    Rotated (ValidatorSet.pair 3 1) ((ValidatorSet.pairSet 3 1).withIncrementedPriority 1) ∧
      ∃ ws, validatorSetFromData
          ((ValidatorSet.pairSet 3 1).withIncrementedPriority 1).toData = .ok ws ∧
        ws.validators.map (·.proposerPriority) ≠
          ((ValidatorSet.pairSet 3 1).withIncrementedPriority 1).validators.map
            (·.proposerPriority) ∧
        ws.getProposerForRound 1 ≠
          ((ValidatorSet.pairSet 3 1).withIncrementedPriority 1).getProposerForRound 1 := by
  have hset : newValidatorSet (ValidatorSet.pair 3 1) = .ok (ValidatorSet.pairSet 3 1) := rfl
  exact ⟨.rotate (.new hset) 1, _, rfl, by decide +kernel, by decide +kernel⟩

theorem schedule_restored_pair :
    ∃ ws, validatorSetFromData
        ((ValidatorSet.pairSet 1 2).withIncrementedPriority 1).toData = .ok ws ∧
      SameSchedule ((ValidatorSet.pairSet 1 2).withIncrementedPriority 1) ws := by
  have hset : newValidatorSet (ValidatorSet.pair 1 2) = .ok (ValidatorSet.pairSet 1 2) := rfl
  obtain ⟨ws, hws, hiff⟩ := restored_iff (.rotate (.new hset) 1)
  have hpriority : ∃ v ∈ ((ValidatorSet.pairSet 1 2).withIncrementedPriority 1).validators,
      v.proposerPriority ≠ 0 := by decide +kernel
  exact ⟨ws, hws, hiff.mpr (.inl hpriority)⟩

end Leaderberry
