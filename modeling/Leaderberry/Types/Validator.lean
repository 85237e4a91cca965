import Mathlib.Algebra.BigOperators.Fin
import Leaderberry.Lib.Quorum
import Leaderberry.Types.Basic

/-!
# Validator sets (`types/validator.go`)

A `ValidatorSet` keeps its validators in list order and reaches them through two
maps. A Go pointer into the list is a position here: `byName` and `byIndex` hold
positions, so that a priority update is seen through the maps as it is in Go.

- `newValidatorSet` checks and indexes a validator list, in the source's order
  of checks.
- `incrementProposerPriority` is the weighted round robin; `getProposerForRound`
  runs it on a copy.
- `ValidatorSet.Wf` is the representation invariant that consensus relies on:
  index `i` names position `i`, powers are positive and add up to `totalPower`.
-/

namespace Leaderberry

variable {vs : ValidatorSet}

/-- `MaxValidators`. -/
def maxValidators : Nat := 65535

/-- `MaxTotalVotingPower`. -/
def maxTotalVotingPower : Int := 2 ^ 60

/-- `PriorityWindowSize`. -/
def priorityWindowSize : Int := maxTotalVotingPower * 2

def maxInt64 : Int := 2 ^ 63 - 1
def minInt64 : Int := -2 ^ 63

/-- `int64` arithmetic that the source does not guard wraps around. -/
def wrapInt64 (x : Int) : Int := Int.bmod x (2 ^ 64)

theorem wrapInt64_eq_self {x : Int} (hlow : minInt64 ≤ x) (hhigh : x ≤ maxInt64) :
    wrapInt64 x = x := by
  simp only [minInt64, maxInt64] at hlow hhigh
  exact Int.bmod_eq_of_le (by norm_num; omega) (by norm_num; omega)

theorem minInt64_le_wrapInt64 (x : Int) : minInt64 ≤ wrapInt64 x := by
  have := Int.le_bmod (x := x) (m := 2 ^ 64) (by norm_num)
  simp only [wrapInt64, minInt64]
  omega

structure NamedValidator where
  name : AccountName
  index : Nat
  publicKey : PublicKey
  votingPower : Int
  proposerPriority : Int
deriving DecidableEq

structure ValidatorSet where
  validators : List NamedValidator
  proposer : Option NamedValidator
  totalPower : Int
  byName : GoMap GoString Nat
  byIndex : GoMap Nat Nat
deriving DecidableEq

/-- Errors of `NewValidatorSet`, with the data their messages carry. -/
inductive ValidatorSetError where
  | emptyValidatorSet
  | tooManyValidators (count : Nat)
  | nilValidator (i : Nat)
  | emptyValidatorName (i : Nat)
  | invalidVotingPower
  | duplicateValidator
  | totalPowerOverflow
deriving DecidableEq

namespace ValidatorSet

/-! ## Proposer selection -/

/-- The loop test of `getProposer`: `v` replaces the candidate `p`. -/
def proposerBefore (v p : NamedValidator) : Bool :=
  decide (p.proposerPriority < v.proposerPriority) ||
    (v.proposerPriority == p.proposerPriority &&
      decide (accountNameString v.name < accountNameString p.name))

/-- The loop of `getProposer`. -/
def pickProposer (vals : List NamedValidator) : Option NamedValidator :=
  vals.foldl (fun proposer v =>
    match proposer with
    | none => some v
    | some p => if proposerBefore v p then some v else some p) none

/-- `getProposer`: the greatest priority, ties to the smaller name. -/
def getProposer (vs : ValidatorSet) : Option NamedValidator :=
  pickProposer vs.validators

/-- The guarded running sum of `centerPriorities`; `none` is its overflow flag. -/
def prioritySum : Int → List NamedValidator → Option Int
  | sum, [] => some sum
  | sum, v :: rest =>
    if 0 < v.proposerPriority ∧ maxInt64 - v.proposerPriority < sum then none
    else if v.proposerPriority < 0 ∧ sum < minInt64 - v.proposerPriority then none
    else prioritySum (sum + v.proposerPriority) rest

/-- `centerPriorities`. Go's integer division rounds towards zero. -/
def centerPriorities (vals : List NamedValidator) : List NamedValidator :=
  let avg :=
    match prioritySum 0 vals with
    | none => 0
    | some sum => sum.tdiv vals.length
  vals.map fun v => { v with proposerPriority := wrapInt64 (v.proposerPriority - avg) }

/-- `initProposerPriorities`. -/
def initProposerPriorities (vals : List NamedValidator) : List NamedValidator :=
  centerPriorities (vals.map fun v => { v with proposerPriority := v.votingPower })

/-- First loop of `IncrementProposerPriority`: add the voting power, clamped. -/
def raisePriority (v : NamedValidator) : NamedValidator :=
  let maxPriority := priorityWindowSize / 2
  if 0 < v.votingPower ∧ maxPriority - v.votingPower < v.proposerPriority then
    { v with proposerPriority := maxPriority }
  else
    { v with proposerPriority := min (v.proposerPriority + v.votingPower) maxPriority }

/-- Second half: the chosen proposer pays the total power, clamped. -/
def lowerPriority (totalPower : Int) (v : NamedValidator) : NamedValidator :=
  let minPriority := -priorityWindowSize / 2
  if 0 < totalPower ∧ v.proposerPriority < minPriority + totalPower then
    { v with proposerPriority := minPriority }
  else
    { v with proposerPriority := max (v.proposerPriority - totalPower) minPriority }

/-- One iteration of `IncrementProposerPriority`. -/
def rotateOnce (totalPower : Int) (vals : List NamedValidator) : List NamedValidator :=
  let raised := vals.map raisePriority
  match pickProposer raised with
  | none => raised
  | some p => raised.map fun v => if v.index = p.index then lowerPriority totalPower v else v

/-- `rotateOnce`, `times` times. -/
def rotate (totalPower : Int) : Nat → List NamedValidator → List NamedValidator
  | 0, vals => vals
  | n + 1, vals => rotate totalPower n (rotateOnce totalPower vals)

/-- `IncrementProposerPriority`. -/
def incrementProposerPriority (vs : ValidatorSet) (times : Int) : ValidatorSet :=
  if vs.validators.length = 0 then vs
  else
    let vals := centerPriorities (rotate vs.totalPower times.toNat vs.validators)
    { vs with validators := vals, proposer := pickProposer vals }

/-! ## Lookup -/

/-- `GetByName`. -/
def getByName (vs : ValidatorSet) (name : GoString) : Option NamedValidator :=
  (vs.byName.lookup name).bind fun pos => vs.validators[pos]?

/-- `GetByIndex`. -/
def getByIndex (vs : ValidatorSet) (index : Nat) : Option NamedValidator :=
  (vs.byIndex.lookup index).bind fun pos => vs.validators[pos]?

/-- `Size`. -/
def size (vs : ValidatorSet) : Nat := vs.validators.length

/-- `TwoThirdsMajority`. -/
def twoThirdsMajority (vs : ValidatorSet) : Int :=
  if vs.totalPower ≤ 0 then 0
  else
    let third := vs.totalPower / 3
    let remainder := vs.totalPower % 3
    let twoThirds := third + third
    (if remainder = 2 then twoThirds + 1 else twoThirds) + 1

/-! ## Copies -/

/-- The maps `Copy` rebuilds. -/
def reindex : Nat → List NamedValidator → GoMap GoString Nat × GoMap Nat Nat →
    GoMap GoString Nat × GoMap Nat Nat
  | _, [], maps => maps
  | pos, v :: rest, (byName, byIndex) =>
    reindex (pos + 1) rest
      (byName.insert (accountNameString v.name) pos, byIndex.insert v.index pos)

/-- `Copy`. It never fails. -/
def copy (vs : ValidatorSet) : ValidatorSet :=
  let maps := reindex 0 vs.validators (∅, ∅)
  let proposer :=
    match vs.proposer with
    | none => none
    | some p =>
      match (maps.2.lookup p.index).bind fun pos => vs.validators[pos]? with
      | some v => some v
      | none => pickProposer vs.validators
  { validators := vs.validators, proposer, totalPower := vs.totalPower,
    byName := maps.1, byIndex := maps.2 }

/-- `WithIncrementedPriority`. -/
def withIncrementedPriority (vs : ValidatorSet) (times : Int) : ValidatorSet :=
  vs.copy.incrementProposerPriority times

/-- `GetProposerForRound`. -/
def getProposerForRound (vs : ValidatorSet) (round : Int) : Option NamedValidator :=
  if round ≤ 0 then vs.proposer
  else (vs.withIncrementedPriority round).proposer

end ValidatorSet

/-! ## Construction -/

/-- The copy-and-validate loop of `NewValidatorSet`, at input position `i`. -/
def addValidators : Nat → List (Option NamedValidator) → ValidatorSet →
    Except ValidatorSetError ValidatorSet
  | _, [], vs => .ok vs
  | i, none :: _, _ => .error (.nilValidator i)
  | i, some v :: rest, vs =>
    let name := accountNameString v.name
    if isAccountNameEmpty v.name then .error (.emptyValidatorName i)
    else if v.votingPower ≤ 0 then .error .invalidVotingPower
    else if (vs.byName.lookup name).isSome then .error .duplicateValidator
    else if maxTotalVotingPower - v.votingPower < vs.totalPower then
      .error .totalPowerOverflow
    else
      addValidators (i + 1) rest
        { vs with
          validators := vs.validators ++ [{ v with index := i % 2 ^ 16 }]
          byName := vs.byName.insert name i
          byIndex := vs.byIndex.insert (i % 2 ^ 16) i
          totalPower := vs.totalPower + v.votingPower }

/-- `NewValidatorSet`. -/
def newValidatorSet (validators : List (Option NamedValidator)) :
    Except ValidatorSetError ValidatorSet :=
  if validators.length = 0 then .error .emptyValidatorSet
  else if maxValidators < validators.length then
    .error (.tooManyValidators validators.length)
  else
    match addValidators 0 validators
        { validators := [], proposer := none, totalPower := 0, byName := ∅, byIndex := ∅ } with
    | .error e => .error e
    | .ok vs =>
      let vals :=
        if vs.validators.all (·.proposerPriority == 0) then
          ValidatorSet.initProposerPriorities vs.validators
        else vs.validators
      .ok { vs with validators := vals, proposer := ValidatorSet.pickProposer vals }

/-! ## The representation invariant -/

/-- A validator without its priority: what rotation never changes. -/
def NamedValidator.identity (v : NamedValidator) : NamedValidator :=
  { v with proposerPriority := 0 }

namespace ValidatorSet

variable {vs : ValidatorSet}

/-- The validators of the set up to priorities. -/
def members (vs : ValidatorSet) : List NamedValidator :=
  vs.validators.map NamedValidator.identity

/-- The voting power at an index, zero for an index the set does not know. -/
def power (vs : ValidatorSet) (index : Nat) : Int :=
  ((vs.getByIndex index).map NamedValidator.votingPower).getD 0

/-- The representation invariant of the sets consensus works with. -/
structure Wf (vs : ValidatorSet) : Prop where
  nonempty : 0 < vs.validators.length
  length_le : vs.validators.length ≤ maxValidators
  power_pos : ∀ v ∈ vs.validators, 0 < v.votingPower
  index_eq : ∀ (i : Nat) v, vs.validators[i]? = some v → v.index = i
  total_eq : vs.totalPower = (vs.validators.map NamedValidator.votingPower).sum
  total_le : vs.totalPower ≤ maxTotalVotingPower
  byIndex_eq : ∀ i, vs.byIndex.lookup i = if i < vs.validators.length then some i else none

/-! ### Rotation keeps the members -/

theorem map_identity_map {f : NamedValidator → NamedValidator}
    (hf : ∀ v, (f v).identity = v.identity) (vals : List NamedValidator) :
    (vals.map f).map NamedValidator.identity = vals.map NamedValidator.identity := by
  rw [List.map_map]
  exact List.map_congr_left fun v _ => hf v

theorem identity_raisePriority (v : NamedValidator) :
    (raisePriority v).identity = v.identity := by
  unfold raisePriority
  dsimp only
  split <;> rfl

theorem identity_lowerPriority (t : Int) (v : NamedValidator) :
    (lowerPriority t v).identity = v.identity := by
  unfold lowerPriority
  dsimp only
  split <;> rfl

theorem identity_centerPriorities (vals : List NamedValidator) :
    (centerPriorities vals).map NamedValidator.identity
      = vals.map NamedValidator.identity := by
  unfold centerPriorities
  exact map_identity_map (by intro v; rfl) vals

theorem identity_rotateOnce (t : Int) (vals : List NamedValidator) :
    (rotateOnce t vals).map NamedValidator.identity
      = vals.map NamedValidator.identity := by
  unfold rotateOnce
  dsimp only
  split
  · exact map_identity_map identity_raisePriority vals
  · rw [map_identity_map, map_identity_map identity_raisePriority]
    intro v
    split
    · exact identity_lowerPriority t v
    · rfl

theorem identity_rotate (t : Int) :
    ∀ (n : Nat) (vals : List NamedValidator),
      (rotate t n vals).map NamedValidator.identity
        = vals.map NamedValidator.identity
  | 0, _ => rfl
  | n + 1, vals => by
    rw [rotate, identity_rotate t n, identity_rotateOnce]

theorem members_incrementProposerPriority (vs : ValidatorSet) (times : Int) :
    (vs.incrementProposerPriority times).members = vs.members := by
  unfold incrementProposerPriority members
  split
  · rfl
  · dsimp only
    rw [identity_centerPriorities, identity_rotate]

theorem members_withIncrementedPriority (vs : ValidatorSet) (times : Int) :
    (vs.withIncrementedPriority times).members = vs.members :=
  members_incrementProposerPriority vs.copy times

theorem totalPower_incrementProposerPriority (vs : ValidatorSet) (times : Int) :
    (vs.incrementProposerPriority times).totalPower = vs.totalPower := by
  unfold incrementProposerPriority
  split <;> rfl

theorem byIndex_incrementProposerPriority (vs : ValidatorSet) (times : Int) :
    (vs.incrementProposerPriority times).byIndex = vs.byIndex := by
  unfold incrementProposerPriority
  split <;> rfl

/-! ### The maps of a copy -/

/-- `reindex` on validators that carry their own position: it adds exactly
their positions to the index map. -/
theorem lookup_reindex (i : Nat) :
    ∀ (vals : List NamedValidator) (pos : Nat)
      (maps : GoMap GoString Nat × GoMap Nat Nat),
      (∀ (j : Nat) v, vals[j]? = some v → v.index = pos + j) →
      (reindex pos vals maps).2.lookup i
        = if pos ≤ i ∧ i < pos + vals.length then some i else maps.2.lookup i
  | [], pos, maps, _ => by
    rw [if_neg (by simp)]
    rfl
  | v :: rest, pos, (byName, byIndex), hidx => by
    have hv : v.index = pos := hidx 0 v rfl
    have hrest : ∀ (j : Nat) w, rest[j]? = some w → w.index = pos + 1 + j := by
      intro j w hw
      have := hidx (j + 1) w (by simpa using hw)
      omega
    rw [reindex, lookup_reindex i rest (pos + 1) _ hrest, hv]
    by_cases hi : i = pos
    · subst hi
      rw [if_neg (by omega), if_pos (by simp)]
      exact AList.lookup_insert _
    · rw [AList.lookup_insert_ne hi]
      by_cases hin : pos + 1 ≤ i ∧ i < pos + 1 + rest.length
      · rw [if_pos hin, if_pos (by simp only [List.length_cons]; omega)]
      · rw [if_neg hin, if_neg (by simp only [List.length_cons]; omega)]

/-- The invariant only speaks of members, total power and the index map. -/
theorem Wf.of_members {ws : ValidatorSet} (h : vs.Wf) (hm : ws.members = vs.members)
    (ht : ws.totalPower = vs.totalPower) (hb : ∀ i, ws.byIndex.lookup i = vs.byIndex.lookup i) :
    ws.Wf := by
  have hlen : ws.validators.length = vs.validators.length := by
    simpa [members] using congrArg List.length hm
  have hget : ∀ (i : Nat) w, ws.validators[i]? = some w →
      ∃ v, vs.validators[i]? = some v ∧ v.identity = w.identity := by
    intro i w hw
    have hi : (ws.members)[i]? = (vs.members)[i]? := by rw [hm]
    simp only [members, List.getElem?_map, hw, Option.map_some] at hi
    obtain ⟨v, hv, hvw⟩ := Option.map_eq_some_iff.mp hi.symm
    exact ⟨v, hv, hvw⟩
  have hpow : ∀ (f : NamedValidator → Int), (∀ v, f v.identity = f v) →
      ws.validators.map f = vs.validators.map f := by
    intro f hf
    have := congrArg (List.map f) hm
    simp only [members, List.map_map] at this
    rw [← List.map_congr_left (f := f ∘ NamedValidator.identity) fun v _ => hf v, this]
    exact List.map_congr_left fun v _ => hf v
  refine { nonempty := by rw [hlen]; exact h.nonempty
           length_le := by rw [hlen]; exact h.length_le
           power_pos := ?_
           index_eq := ?_
           total_eq := ?_
           total_le := by rw [ht]; exact h.total_le
           byIndex_eq := fun i => by rw [hb, h.byIndex_eq, hlen] }
  · intro w hw
    obtain ⟨i, hi, rfl⟩ := List.mem_iff_getElem.mp hw
    obtain ⟨v, hv, hvw⟩ := hget i _ (List.getElem?_eq_getElem hi)
    have := h.power_pos v (List.mem_of_getElem? hv)
    have hp := congrArg NamedValidator.votingPower hvw
    simp only [NamedValidator.identity] at hp
    omega
  · intro i w hw
    obtain ⟨v, hv, hvw⟩ := hget i w hw
    have hidx := congrArg NamedValidator.index hvw
    simp only [NamedValidator.identity] at hidx
    rw [← hidx]
    exact h.index_eq i v hv
  · rw [ht, h.total_eq, hpow NamedValidator.votingPower fun _ => rfl]

theorem Wf.copy (h : vs.Wf) : vs.copy.Wf := by
  refine h.of_members rfl rfl fun i => ?_
  show (reindex 0 vs.validators (∅, ∅)).2.lookup i = _
  rw [lookup_reindex i vs.validators 0 _ (by simpa using h.index_eq), h.byIndex_eq]
  simp

theorem Wf.incrementProposerPriority (h : vs.Wf) (times : Int) :
    (vs.incrementProposerPriority times).Wf :=
  h.of_members (members_incrementProposerPriority vs times)
    (totalPower_incrementProposerPriority vs times)
    fun i => by rw [byIndex_incrementProposerPriority]

theorem Wf.withIncrementedPriority (h : vs.Wf) (times : Int) :
    (vs.withIncrementedPriority times).Wf :=
  h.copy.incrementProposerPriority times

/-! ### Powers and quorums of a well-formed set -/

theorem Wf.getByIndex_eq (h : vs.Wf) (i : Nat) :
    vs.getByIndex i = vs.validators[i]? := by
  rw [getByIndex, h.byIndex_eq]
  split
  · rfl
  · rename_i hi
    simp [List.getElem?_eq_none (not_lt.mp hi)]

theorem Wf.lt_of_getByIndex (h : vs.Wf) {i : Nat} {v : NamedValidator}
    (hv : vs.getByIndex i = some v) : i < vs.validators.length := by
  rw [h.getByIndex_eq] at hv
  exact (List.getElem?_eq_some_iff.mp hv).1

theorem power_of_getByIndex {i : Nat} {v : NamedValidator} (hv : vs.getByIndex i = some v) :
    vs.power i = v.votingPower := by
  rw [power, hv]
  rfl

theorem Wf.power_nonneg (h : vs.Wf) (i : Nat) : 0 ≤ vs.power i := by
  cases hv : vs.getByIndex i with
  | none => simp [power, hv]
  | some v =>
    rw [power_of_getByIndex hv]
    rw [h.getByIndex_eq] at hv
    exact le_of_lt (h.power_pos v (List.mem_of_getElem? hv))

/-- The validators of a well-formed set as voters, named by their index. -/
def Wf.electorate {vs : ValidatorSet} (h : vs.Wf) : Electorate Nat where
  members := Finset.range vs.validators.length
  weight := vs.power
  weight_nonneg := h.power_nonneg

theorem Wf.total_electorate (h : vs.Wf) :
    h.electorate.total = vs.totalPower := by
  rw [h.total_eq, Electorate.total, Electorate.power, ← Fin.sum_univ_fun_getElem]
  show ∑ i ∈ Finset.range vs.validators.length, vs.power i = _
  rw [Finset.sum_range]
  refine Finset.sum_congr rfl fun i _ => power_of_getByIndex ?_
  rw [h.getByIndex_eq]
  exact List.getElem?_eq_getElem i.isLt

theorem Wf.totalPower_pos (h : vs.Wf) : 0 < vs.totalPower := by
  obtain ⟨v, rest, hv⟩ := List.exists_cons_of_length_pos h.nonempty
  have hpos := h.power_pos
  rw [h.total_eq, hv]
  rw [hv] at hpos
  have hrest : 0 ≤ (rest.map NamedValidator.votingPower).sum := by
    refine List.sum_nonneg fun x hx => ?_
    obtain ⟨w, hw, rfl⟩ := List.mem_map.mp hx
    exact le_of_lt (hpos w (List.mem_cons_of_mem _ hw))
  have := hpos v (List.mem_cons_self ..)
  rw [List.map_cons, List.sum_cons]
  omega

/-- `TwoThirdsMajority` is the least power above two thirds. -/
theorem twoThirdsMajority_le_iff (h : 0 < vs.totalPower) (p : Int) :
    vs.twoThirdsMajority ≤ p ↔ 2 * vs.totalPower < 3 * p := by
  unfold twoThirdsMajority
  rw [if_neg (not_le.mpr h)]
  dsimp only
  split <;> omega

theorem Wf.isQuorum_iff (h : vs.Wf) {S : Finset Nat} (hS : S ⊆ h.electorate.members) :
    h.electorate.IsQuorum S ↔ vs.twoThirdsMajority ≤ h.electorate.power S := by
  rw [twoThirdsMajority_le_iff h.totalPower_pos, ← h.total_electorate]
  exact ⟨fun hq => hq.two_thirds, fun hp => ⟨hS, hp⟩⟩

/-- Quorums do not depend on the proof that the set is well formed. -/
theorem Wf.isQuorum_of_eq {ws : ValidatorSet} (h' : ws.Wf) {h : vs.Wf} {S : Finset Nat}
    (heq : vs = ws) (hq : h.electorate.IsQuorum S) : h'.electorate.IsQuorum S := by
  subst heq
  exact hq

/-- Known validators, each listed once, with enough power together are a quorum. -/
theorem Wf.isQuorum_of_list (h : vs.Wf) {l : List Nat} (hnodup : l.Nodup)
    (hknown : ∀ i ∈ l, ∃ v, vs.getByIndex i = some v)
    (hpower : vs.twoThirdsMajority ≤ (l.map vs.power).sum) :
    h.electorate.IsQuorum l.toFinset := by
  have hsub : l.toFinset ⊆ h.electorate.members := by
    intro i hi
    obtain ⟨v, hv⟩ := hknown i (List.mem_toFinset.mp hi)
    exact Finset.mem_range.mpr (h.lt_of_getByIndex hv)
  rw [h.isQuorum_iff hsub]
  show _ ≤ ∑ i ∈ l.toFinset, vs.power i
  rw [List.sum_toFinset _ hnodup]
  exact hpower

end ValidatorSet

/-! ### `NewValidatorSet` establishes it -/

/-- The set after one round of the copy-and-validate loop. -/
def ValidatorSet.push (vs : ValidatorSet) (i : Nat) (v : NamedValidator) : ValidatorSet :=
  { vs with
    validators := vs.validators ++ [{ v with index := i % 2 ^ 16 }]
    byName := vs.byName.insert (accountNameString v.name) i
    byIndex := vs.byIndex.insert (i % 2 ^ 16) i
    totalPower := vs.totalPower + v.votingPower }

/-- The set before the loop. -/
def ValidatorSet.empty : ValidatorSet :=
  { validators := [], proposer := none, totalPower := 0, byName := ∅, byIndex := ∅ }

/-- The checks of the loop pass. -/
structure Acceptable (v : NamedValidator) (vs : ValidatorSet) : Prop where
  name : isAccountNameEmpty v.name = false
  power : 0 < v.votingPower
  new : vs.byName.lookup (accountNameString v.name) = none
  total : vs.totalPower + v.votingPower ≤ maxTotalVotingPower

theorem addValidators_cons_ok {i : Nat} {v : NamedValidator} {rest : List (Option NamedValidator)}
    {vs' : ValidatorSet} (h : addValidators i (some v :: rest) vs = .ok vs') :
    Acceptable v vs ∧ addValidators (i + 1) rest (vs.push i v) = .ok vs' := by
  rw [addValidators] at h
  split at h
  · cases h
  rename_i hname
  split at h
  · cases h
  rename_i hpower
  split at h
  · cases h
  rename_i hnew
  split at h
  · cases h
  rename_i htotal
  refine ⟨⟨Bool.eq_false_iff.mpr hname, by omega, ?_, by omega⟩, h⟩
  exact Option.not_isSome_iff_eq_none.mp hnew

/-- **The rule for the loop**: what every round keeps holds when the loop is through. -/
theorem addValidators_rule {P : Nat → ValidatorSet → Prop} :
    ∀ (rest : List (Option NamedValidator)) (i : Nat) (vs vs' : ValidatorSet),
      addValidators i rest vs = .ok vs' → P i vs →
      (∀ j v ws, some v ∈ rest → j < i + rest.length → P j ws → Acceptable v ws →
        P (j + 1) (ws.push j v)) →
      P (i + rest.length) vs'
  | [], _, _, _, h, hstart, _ => by
    cases h
    exact hstart
  | none :: _, _, _, _, h, _, _ => by cases h
  | some v :: rest, i, vs, vs', h, hstart, hround => by
    obtain ⟨haccept, hrest⟩ := addValidators_cons_ok h
    rw [List.length_cons] at hround ⊢
    rw [show i + (rest.length + 1) = i + 1 + rest.length by omega] at hround ⊢
    have hfirst := hround i v vs (List.mem_cons_self ..) (by omega) hstart haccept
    exact addValidators_rule rest (i + 1) _ vs' hrest hfirst fun j w ws hw =>
      hround j w ws (List.mem_cons_of_mem _ hw)

/-- What `NewValidatorSet` returns, from what its loop has built: only the priorities and the
proposer are still to be set. -/
structure Initialised (built vs : ValidatorSet) : Prop where
  validators : vs.validators =
    if built.validators.all (·.proposerPriority == 0) then
      ValidatorSet.initProposerPriorities built.validators
    else built.validators
  members : vs.members = built.members
  totalPower : vs.totalPower = built.totalPower
  byName : vs.byName = built.byName
  byIndex : vs.byIndex = built.byIndex
  proposer : vs.proposer = ValidatorSet.pickProposer vs.validators

theorem newValidatorSet_ok {validators : List (Option NamedValidator)}
    (h : newValidatorSet validators = .ok vs) :
    0 < validators.length ∧ validators.length ≤ maxValidators ∧
      ∃ built, addValidators 0 validators ValidatorSet.empty = .ok built ∧
        Initialised built vs := by
  unfold newValidatorSet at h
  split at h
  · cases h
  rename_i hnonempty
  split at h
  · cases h
  rename_i hmax
  split at h
  · cases h
  rename_i built hadd
  cases h
  refine ⟨Nat.pos_of_ne_zero hnonempty, Nat.not_lt.mp hmax, built, hadd,
    ⟨rfl, ?_, rfl, rfl, rfl, rfl⟩⟩
  show List.map _ (if _ then _ else _) = _
  split
  · unfold ValidatorSet.initProposerPriorities
    rw [ValidatorSet.identity_centerPriorities]
    exact ValidatorSet.map_identity_map (by intro v; rfl) _
  · rfl

/-- What the copy-and-validate loop has built when it stands at position `i`. -/
structure Building (i : Nat) (vs : ValidatorSet) : Prop where
  length_eq : vs.validators.length = i
  power_pos : ∀ v ∈ vs.validators, 0 < v.votingPower
  index_eq : ∀ (j : Nat) v, vs.validators[j]? = some v → v.index = j
  total_eq : vs.totalPower = (vs.validators.map NamedValidator.votingPower).sum
  total_le : vs.totalPower ≤ maxTotalVotingPower
  byIndex_eq : ∀ j, vs.byIndex.lookup j = if j < i then some j else none

theorem building_empty : Building 0 ValidatorSet.empty where
  length_eq := rfl
  power_pos := by simp [ValidatorSet.empty]
  index_eq := by simp [ValidatorSet.empty]
  total_eq := rfl
  total_le := by decide
  byIndex_eq := by simp [ValidatorSet.empty]

theorem Building.push {i : Nat} (hb : Building i vs) (hi : i < maxValidators) {v : NamedValidator}
    (hv : Acceptable v vs) :
    Building (i + 1) (vs.push i v) := by
  have hmod : i % 2 ^ 16 = i := Nat.mod_eq_of_lt (by simp only [maxValidators] at hi; omega)
  unfold ValidatorSet.push
  rw [hmod]
  refine { length_eq := by simp [hb.length_eq]
           power_pos := ?_
           index_eq := ?_
           total_eq := by simp [hb.total_eq]
           total_le := hv.total
           byIndex_eq := ?_ }
  · intro w hw
    rcases List.mem_append.mp hw with hw | hw
    · exact hb.power_pos w hw
    · rw [List.mem_singleton.mp hw]
      exact hv.power
  · intro j w hw
    rw [List.getElem?_append] at hw
    split at hw
    · exact hb.index_eq j w hw
    · -- the new validator, at the end of the list
      rename_i hj
      rw [hb.length_eq] at hw hj
      cases hji : j - i with
      | zero =>
        rw [hji] at hw
        cases hw
        dsimp only
        omega
      | succ n => simp [hji] at hw
  · intro j
    by_cases hj : j = i
    · subst hj
      rw [AList.lookup_insert, if_pos (Nat.lt_succ_self _)]
    · rw [AList.lookup_insert_ne hj, hb.byIndex_eq]
      by_cases hlt : j < i
      · rw [if_pos hlt, if_pos (by omega)]
      · rw [if_neg hlt, if_neg (by omega)]

theorem building_addValidators {validators : List (Option NamedValidator)} {built : ValidatorSet}
    (hlen : validators.length ≤ maxValidators)
    (h : addValidators 0 validators ValidatorSet.empty = .ok built) :
    Building validators.length built := by
  have hbuilt := addValidators_rule validators 0 _ built h building_empty
    fun j v ws _ hj hb hv => hb.push (by omega) hv
  rwa [Nat.zero_add] at hbuilt

/-- **`NewValidatorSet` only builds well-formed sets.** -/
theorem wf_newValidatorSet {validators : List (Option NamedValidator)}
    (h : newValidatorSet validators = .ok vs) : vs.Wf := by
  obtain ⟨hpos, hmax, built, hadd, hinit⟩ := newValidatorSet_ok h
  have hb := building_addValidators hmax hadd
  have hwf : built.Wf :=
    { nonempty := by rw [hb.length_eq]; exact hpos
      length_le := by rw [hb.length_eq]; exact hmax
      power_pos := hb.power_pos
      index_eq := hb.index_eq
      total_eq := hb.total_eq
      total_le := hb.total_le
      byIndex_eq := by rw [hb.length_eq]; exact hb.byIndex_eq }
  exact hwf.of_members hinit.members hinit.totalPower fun i => by rw [hinit.byIndex]

end Leaderberry
