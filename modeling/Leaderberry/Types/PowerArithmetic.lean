import Mathlib.Order.Bounds.Basic
import Leaderberry.Types.PriorityBounds

/-!
# Voting power in `int64`

The source adds up powers in `int64` and guards the total with `MaxTotalVotingPower`. `Exact`
holds these functions too with every addition and subtraction made explicit: one that does
not fit has no result.

- `addValidators_exact`: the loop of `NewValidatorSet` never overflows. A power is positive
  when the guard subtracts it, and the total is within the bound when a power is added.
- `twoThirdsMajority_exact`: so the threshold does not overflow either.
- `quorum_arithmetic`: the threshold is the least power above two thirds, and what reaches it
  twice overlaps in more than a third.
-/

namespace Leaderberry

namespace ValidatorSet

namespace Exact

/-- The copy-and-validate loop of `NewValidatorSet`, at input position `i`. -/
def addValidators : Nat → List (Option NamedValidator) → ValidatorSet →
    Option (Except ValidatorSetError ValidatorSet)
  | _, [], vs => some (.ok vs)
  | i, none :: _, _ => some (.error (.nilValidator i))
  | i, some v :: rest, vs =>
    let name := accountNameString v.name
    if isAccountNameEmpty v.name then some (.error (.emptyValidatorName i))
    else if v.votingPower ≤ 0 then some (.error .invalidVotingPower)
    else if (vs.byName.lookup name).isSome then some (.error .duplicateValidator)
    else do
      let limit ← sub maxTotalVotingPower v.votingPower
      if limit < vs.totalPower then some (.error .totalPowerOverflow)
      else
        let total ← add vs.totalPower v.votingPower
        addValidators (i + 1) rest
          { vs with
            validators := vs.validators ++ [{ v with index := i % 2 ^ 16 }]
            byName := vs.byName.insert name i
            byIndex := vs.byIndex.insert (i % 2 ^ 16) i
            totalPower := total }

/-- `TwoThirdsMajority`. -/
def twoThirdsMajority (vs : ValidatorSet) : Option Int :=
  if vs.totalPower ≤ 0 then some 0
  else do
    let third := vs.totalPower / 3
    let remainder := vs.totalPower % 3
    let twoThirds ← add third third
    let twoThirds ← if remainder = 2 then add twoThirds 1 else some twoThirds
    add twoThirds 1

end Exact

/-! ## The running total -/

/-- One power more: the guard does not overflow, and behind it the addition does not. -/
theorem addPower_exact {total power : Int} (htotal : 0 ≤ total) (hpower : 0 < power)
    (hmax : power ≤ maxInt64) :
    Exact.sub maxTotalVotingPower power = some (maxTotalVotingPower - power) ∧
      (total ≤ maxTotalVotingPower - power →
        Exact.add total power = some (total + power)) := by
  simp only [maxInt64] at hmax
  constructor
  · refine Exact.sub_eq ?_
    simp only [maxTotalVotingPower, minInt64, maxInt64]
    omega
  · intro hguard
    refine Exact.add_eq ?_
    simp only [maxTotalVotingPower, minInt64, maxInt64] at hguard ⊢
    omega

/-- **The loop of `NewValidatorSet` does not overflow**, whatever the powers are. -/
theorem addValidators_exact : ∀ (rest : List (Option NamedValidator)) (i : Nat)
    (vs : ValidatorSet), 0 ≤ vs.totalPower →
    (∀ v, some v ∈ rest → v.votingPower ≤ maxInt64) →
    Exact.addValidators i rest vs = some (addValidators i rest vs)
  | [], _, _, _, _ => rfl
  | none :: _, _, _, _, _ => rfl
  | some v :: rest, i, vs, htotal, hmax => by
    have hrest : ∀ w, some w ∈ rest → w.votingPower ≤ maxInt64 := fun w hw =>
      hmax w (List.mem_cons_of_mem _ hw)
    rw [Exact.addValidators, addValidators]
    split
    · rfl
    split
    · rfl
    rename_i hpos
    obtain ⟨hsub, hadd⟩ := addPower_exact htotal (lt_of_not_ge hpos)
      (hmax v (List.mem_cons_self ..))
    split
    · rfl
    -- the guard, and the addition behind it
    rw [hsub, Option.bind_eq_bind, Option.bind_some]
    split
    · rfl
    · rename_i hguard
      rw [hadd (not_lt.mp hguard), Option.bind_some]
      exact addValidators_exact rest (i + 1) _ (by dsimp only; omega) hrest

/-! ## The threshold -/

variable {vs : ValidatorSet}

theorem twoThirdsMajority_exact (h : vs.Wf) :
    Exact.twoThirdsMajority vs = some vs.twoThirdsMajority := by
  have hpos := h.totalPower_pos
  have hle := h.total_le
  simp only [maxTotalVotingPower] at hle
  have hadd {x y : Int} (hx : 0 ≤ x ∧ x ≤ 2 ^ 61) (hy : 0 ≤ y ∧ y ≤ 2 ^ 61) :
      Exact.add x y = some (x + y) := by
    refine Exact.add_eq ?_
    simp only [minInt64, maxInt64]
    omega
  unfold Exact.twoThirdsMajority twoThirdsMajority
  rw [if_neg (not_le.mpr hpos), if_neg (not_le.mpr hpos)]
  dsimp only
  rw [hadd (by omega) (by omega), Option.bind_eq_bind, Option.bind_some]
  split
  · rw [hadd (by omega) (by omega), Option.bind_some, hadd (by omega) (by omega)]
  · rw [Option.bind_some, hadd (by omega) (by omega)]

/-- The threshold is the least power above two thirds. -/
theorem isLeast_twoThirdsMajority (h : 0 < vs.totalPower) :
    IsLeast {q : Int | 2 * vs.totalPower < 3 * q} vs.twoThirdsMajority :=
  ⟨(twoThirdsMajority_le_iff h _).mp le_rfl, fun _ hq => (twoThirdsMajority_le_iff h _).mpr hq⟩

/-- The validators of a well-formed set as voters, named by their position in the list. -/
def Wf.seats (h : vs.Wf) : Electorate (Fin vs.validators.length) where
  members := Finset.univ
  weight i := (vs.validators.get i).votingPower
  weight_nonneg _ := (h.power_pos _ (List.get_mem ..)).le

theorem Wf.total_seats (h : vs.Wf) : h.seats.total = vs.totalPower := by
  rw [h.total_eq, ← Fin.sum_univ_fun_getElem]
  rfl

theorem Wf.isQuorum_seats (h : vs.Wf) {S : Finset (Fin vs.validators.length)}
    (hS : vs.twoThirdsMajority ≤ ∑ i ∈ S, (vs.validators.get i).votingPower) :
    h.seats.IsQuorum S where
  subset := Finset.subset_univ S
  two_thirds := by
    rw [h.total_seats]
    exact (twoThirdsMajority_le_iff h.totalPower_pos _).mp hS

/-- **Quorum arithmetic.** For a set that `NewValidatorSet` accepts, the threshold is computed
without overflow, is the least power above two thirds and at most the total; and two
collections of validators that both reach it share more than a third of the power. -/
theorem quorum_arithmetic {validators : List (Option NamedValidator)}
    (h : newValidatorSet validators = .ok vs) :
    Exact.twoThirdsMajority vs = some vs.twoThirdsMajority ∧
    IsLeast {q : Int | 2 * vs.totalPower < 3 * q} vs.twoThirdsMajority ∧
    vs.twoThirdsMajority ≤ vs.totalPower ∧
    ∀ S T : Finset (Fin vs.validators.length),
      vs.twoThirdsMajority ≤ ∑ i ∈ S, (vs.validators.get i).votingPower →
      vs.twoThirdsMajority ≤ ∑ i ∈ T, (vs.validators.get i).votingPower →
        vs.totalPower < 3 * ∑ i ∈ S ∩ T, (vs.validators.get i).votingPower := by
  have hwf := wf_newValidatorSet h
  have hpos := hwf.totalPower_pos
  refine ⟨twoThirdsMajority_exact hwf, isLeast_twoThirdsMajority hpos, ?_, fun S T hS hT => ?_⟩
  · exact (twoThirdsMajority_le_iff hpos _).mpr (by omega)
  · have hcommon := (hwf.isQuorum_seats hS).inter_power (hwf.isQuorum_seats hT)
    rwa [hwf.total_seats] at hcommon

/-- Powers 1 and 5: the threshold is 5, and the second validator is in every quorum. -/
theorem quorum_arithmetic_pair :
    newValidatorSet (pair 1 5) = .ok (pairSet 1 5) ∧ (pairSet 1 5).twoThirdsMajority = 5 ∧
    (pairSet 1 5).totalPower <
      3 * ∑ i ∈ ({1} : Finset (Fin 2)), ((pairSet 1 5).validators.get i).votingPower := by
  have hset : newValidatorSet (pair 1 5) = .ok (pairSet 1 5) := rfl
  refine ⟨hset, by decide +kernel, ?_⟩
  exact (quorum_arithmetic hset).2.2.2 ({1} : Finset (Fin 2)) Finset.univ (by decide +kernel)
    (by decide +kernel)

end ValidatorSet

end Leaderberry
