import Mathlib.Algebra.Order.Field.Basic
import Mathlib.Data.Rat.Cast.Order
import Mathlib.Tactic.FieldSimp
import Leaderberry.Lib.RoundRobin
import Leaderberry.Types.Validator

/-!
# Proposer rotation

`IncrementProposerPriority` is the weighted round robin of `Lib.RoundRobin`, as long as
no priority is clamped (`Balanced.step`). So validators are charged in proportion to
their power. The `Proposer` field is another matter: it is chosen after the charge, from
priorities without the next raise, and need not be the validator that is charged next.
Where it is, proposers come up in proportion to their power (`proportional_rotation`).
-/

namespace Leaderberry

namespace ValidatorSet

variable {v : NamedValidator} {vals : List NamedValidator} {vs : ValidatorSet} {i : Nat}

/-! ## The choice of a proposer -/

theorem proposerBefore_iff {p : NamedValidator} :
    proposerBefore v p = true ↔ p.proposerPriority < v.proposerPriority ∨
      v.proposerPriority = p.proposerPriority ∧
        accountNameString v.name < accountNameString p.name := by
  rw [proposerBefore, Bool.or_eq_true, decide_eq_true_eq, Bool.and_eq_true, beq_iff_eq,
    decide_eq_true_eq]

theorem proposerBefore_trans {u p : NamedValidator} (huv : proposerBefore u v = true)
    (hvp : proposerBefore v p = true) : proposerBefore u p = true := by
  rw [proposerBefore_iff] at huv hvp ⊢
  rcases huv with huv | ⟨huv, huv'⟩
  · rcases hvp with hvp | ⟨hvp, -⟩
    · exact .inl (by omega)
    · exact .inl (by omega)
  · rcases hvp with hvp | ⟨hvp, hvp'⟩
    · exact .inl (by omega)
    · exact .inr ⟨huv.trans hvp, huv'.trans hvp'⟩

theorem proposerBefore_irrefl (v : NamedValidator) : ¬ proposerBefore v v = true := by
  rw [proposerBefore_iff]
  rintro (h | ⟨-, h⟩)
  · exact lt_irrefl _ h
  · exact lt_irrefl _ h

/-- `getProposer` finds a validator, and none comes before it. -/
theorem pickProposer_first (h : vals ≠ []) :
    ∃ p, pickProposer vals = some p ∧ p ∈ vals ∧ ∀ v ∈ vals, ¬ proposerBefore v p = true := by
  induction vals using List.reverseRecOn with
  | nil => exact absurd rfl h
  | append_singleton vals w ih =>
    by_cases hnil : vals = []
    · subst hnil
      refine ⟨w, rfl, List.mem_singleton.mpr rfl, fun v hv => ?_⟩
      rw [List.mem_singleton.mp hv]
      exact proposerBefore_irrefl w
    obtain ⟨p, hp, hmem, hfirst⟩ := ih hnil
    have hstep : pickProposer (vals ++ [w]) = if proposerBefore w p then some w else some p := by
      unfold pickProposer at hp ⊢
      rw [List.foldl_concat, hp]
    rw [hstep]
    by_cases hbefore : proposerBefore w p = true
    · -- the new one replaces the candidate
      rw [if_pos hbefore]
      refine ⟨w, rfl, List.mem_append_right _ (List.mem_singleton.mpr rfl), fun v hv => ?_⟩
      rcases List.mem_append.mp hv with hv | hv
      · exact fun hvw => hfirst v hv (proposerBefore_trans hvw hbefore)
      · rw [List.mem_singleton.mp hv]
        exact proposerBefore_irrefl w
    · rw [if_neg hbefore]
      refine ⟨p, rfl, List.mem_append_left _ hmem, fun v hv => ?_⟩
      rcases List.mem_append.mp hv with hv | hv
      · exact hfirst v hv
      · rwa [List.mem_singleton.mp hv]

/-- So none has a greater priority. -/
theorem pickProposer_spec (h : vals ≠ []) :
    ∃ p, pickProposer vals = some p ∧ p ∈ vals ∧
      ∀ v ∈ vals, v.proposerPriority ≤ p.proposerPriority := by
  obtain ⟨p, hp, hmem, hfirst⟩ := pickProposer_first h
  refine ⟨p, hp, hmem, fun v hv => not_lt.mp fun hlt => ?_⟩
  exact hfirst v hv (proposerBefore_iff.mpr (.inl hlt))

/-! ## Priorities without clamping -/

/-- The running sum of `centerPriorities` does not overflow: no priority is below `-b`, so
no partial sum is far from the end result. -/
theorem prioritySum_eq {b : Int} (hb : 0 ≤ b) : ∀ (vals : List NamedValidator) (sum : Int),
    (∀ v ∈ vals, -b ≤ v.proposerPriority) → minInt64 + vals.length * b ≤ sum →
    sum + (vals.map NamedValidator.proposerPriority).sum + vals.length * b ≤ maxInt64 →
    prioritySum sum vals = some (sum + (vals.map NamedValidator.proposerPriority).sum)
  | [], sum, _, _, _ => by simp [prioritySum]
  | v :: rest, sum, hlow, hmin, hmax => by
    have hv := hlow v (List.mem_cons_self ..)
    have hslack : 0 ≤ rest.length * b := Int.mul_nonneg (Int.natCast_nonneg _) hb
    have hlow' : ∀ w ∈ rest, -b ≤ w.proposerPriority :=
      fun w hw => hlow w (List.mem_cons_of_mem _ hw)
    have hrest : rest.length * (-b) ≤ (rest.map NamedValidator.proposerPriority).sum := by
      have := List.card_nsmul_le_sum (rest.map NamedValidator.proposerPriority) (-b)
        (by simpa using hlow')
      simpa using this
    simp only [List.length_cons, Nat.cast_add, Nat.cast_one, add_mul, one_mul, List.map_cons,
      List.sum_cons, mul_neg] at hmin hmax hrest ⊢
    rw [prioritySum, if_neg (by omega), if_neg (by omega),
      prioritySum_eq hb rest _ hlow' (by omega) (by omega), add_assoc]

/-- Centering does nothing when the average rounds to zero. -/
theorem centerPriorities_eq_self {b : Int} (hb : 0 ≤ b) (hlow : ∀ v ∈ vals, -b ≤ v.proposerPriority)
    (hhigh : ∀ v ∈ vals, v.proposerPriority ≤ maxInt64) (hsmall : vals.length * (b + 1) ≤ maxInt64)
    (hnonneg : 0 ≤ (vals.map NamedValidator.proposerPriority).sum)
    (hlt : (vals.map NamedValidator.proposerPriority).sum < vals.length) :
    centerPriorities vals = vals := by
  rw [mul_add, mul_one] at hsmall
  have hsum := prioritySum_eq hb vals 0 hlow
    (by simp only [minInt64, maxInt64] at hsmall ⊢; omega) (by omega)
  have hpos : b ≤ vals.length * b := le_mul_of_one_le_left hb (by omega)
  unfold centerPriorities
  rw [hsum]
  dsimp only
  rw [zero_add, Int.tdiv_eq_zero_of_lt hnonneg hlt]
  conv_rhs => rw [← List.map_id vals]
  refine List.map_congr_left fun v hv => ?_
  have hv₁ := hlow v hv
  have hv₂ := hhigh v hv
  have hwrap : wrapInt64 (v.proposerPriority - 0) = v.proposerPriority := by
    simp only [maxInt64] at hv₂ hsmall
    rw [sub_zero]
    exact Int.bmod_eq_of_le (by norm_num; omega) (by norm_num; omega)
  rw [hwrap]
  rfl

/-- A raise that stays within the window adds the voting power. -/
theorem priority_raisePriority (h : v.proposerPriority + v.votingPower ≤ maxTotalVotingPower) :
    (raisePriority v).proposerPriority = v.proposerPriority + v.votingPower := by
  have hwindow : priorityWindowSize / 2 = maxTotalVotingPower := by decide
  unfold raisePriority
  rw [hwindow]
  dsimp only
  rw [if_neg (by omega)]
  exact min_eq_left h

/-- A charge that stays within the window takes the total power. -/
theorem priority_lowerPriority {t : Int} (h : -maxTotalVotingPower ≤ v.proposerPriority - t) :
    (lowerPriority t v).proposerPriority = v.proposerPriority - t := by
  have hwindow : -priorityWindowSize / 2 = -maxTotalVotingPower := by decide
  unfold lowerPriority
  rw [hwindow]
  dsimp only
  rw [if_neg (by omega)]
  exact max_eq_left h

/-! ## The priorities of a set -/

/-- The priority at an index, zero for an index the set does not know. -/
def priority (vs : ValidatorSet) (i : Nat) : Int :=
  ((vs.validators[i]?).map NamedValidator.proposerPriority).getD 0

theorem priority_of_getElem? (h : vs.validators[i]? = some v) :
    vs.priority i = v.proposerPriority := by
  rw [priority, h]
  rfl

theorem Wf.power_of_getElem? (hwf : vs.Wf) (h : vs.validators[i]? = some v) :
    vs.power i = v.votingPower :=
  power_of_getByIndex (by rw [hwf.getByIndex_eq, h])

theorem sum_priority (vs : ValidatorSet) :
    ∑ i ∈ Finset.range vs.validators.length, vs.priority i
      = (vs.validators.map NamedValidator.proposerPriority).sum := by
  rw [← Fin.sum_univ_fun_getElem, Finset.sum_range]
  exact Finset.sum_congr rfl fun i _ => priority_of_getElem? (List.getElem?_eq_getElem i.isLt)

/-- The validator that `IncrementProposerPriority` charges next. -/
def charged (vs : ValidatorSet) : Option Nat :=
  (pickProposer (vs.validators.map raisePriority)).map NamedValidator.index

/-- The validator in the `Proposer` field. -/
def proposerIndex (vs : ValidatorSet) : Option Nat :=
  vs.proposer.map NamedValidator.index

/-- The set after `k` times `WithIncrementedPriority(1)`. -/
def successive (vs : ValidatorSet) : Nat → ValidatorSet
  | 0 => vs
  | k + 1 => (vs.successive k).withIncrementedPriority 1

theorem members_successive (vs : ValidatorSet) (k : Nat) :
    (vs.successive k).members = vs.members := by
  induction k with
  | zero => rfl
  | succ k ih => rw [successive, members_withIncrementedPriority, ih]

/-- How often validator `i` is the proposer of the `n` sets from `vs` on. -/
def appearances (vs : ValidatorSet) (n i : Nat) : Nat :=
  (List.range n).countP fun k => (vs.successive k).proposerIndex == some i

/-! ## One step is one turn -/

theorem Wf.electorate_eq {ws : ValidatorSet} (h : vs.Wf) (h' : ws.Wf) (hm : ws.members = vs.members)
    :
    h'.electorate = h.electorate := by
  have hlen : ws.validators.length = vs.validators.length := by
    simpa [members] using congrArg List.length hm
  have hpower : ws.power = vs.power := by
    funext i
    have hi : (ws.members[i]?).map NamedValidator.votingPower
        = (vs.members[i]?).map NamedValidator.votingPower := by rw [hm]
    simp only [members, List.getElem?_map, Option.map_map] at hi
    simp only [power, h.getByIndex_eq, h'.getByIndex_eq]
    exact congrArg (Option.getD · 0) hi
  simp only [Wf.electorate, hlen, hpower]

/-- Sets whose priorities nothing clamps: the members owe less than the total power each,
and together they have almost nothing. -/
structure Balanced (vs : ValidatorSet) : Prop where
  wf : vs.Wf
  small : vs.totalPower ≤ 2 ^ 32
  solvent : wf.electorate.Solvent vs.priority
  sum_lt : ∑ i ∈ wf.electorate.members, vs.priority i < vs.validators.length

namespace Balanced

variable {vs : ValidatorSet} {i : Nat} {v : NamedValidator}

variable (h : Balanced vs)

include h

theorem mem_lt (hv : vs.validators[i]? = some v) : i ∈ h.wf.electorate.members :=
  Finset.mem_range.mpr (List.getElem?_eq_some_iff.mp hv).1

/-- No validator holds more than the total. -/
theorem power_le (hv : vs.validators[i]? = some v) : v.votingPower ≤ vs.totalPower := by
  have hle := Finset.single_le_sum (fun k _ => h.wf.electorate.weight_nonneg k) (h.mem_lt hv)
  rw [← h.wf.total_electorate, ← h.wf.power_of_getElem? hv]
  exact hle

theorem low (hv : vs.validators[i]? = some v) : -vs.totalPower < v.proposerPriority := by
  have := h.solvent.bound i (h.mem_lt hv)
  rwa [priority_of_getElem? hv, h.wf.total_electorate] at this

theorem high (hv : vs.validators[i]? = some v) : v.proposerPriority ≤ 2 ^ 49 := by
  have hle := h.solvent.le (h.mem_lt hv)
  have hsum := h.sum_lt
  have hlen := h.wf.length_le
  have hcard : h.wf.electorate.members.card = vs.validators.length := Finset.card_range _
  rw [priority_of_getElem? hv, h.wf.total_electorate, hcard] at hle
  have hmul : ((vs.validators.length : Int) - 1) * (vs.totalPower - 1) ≤ 65535 * 2 ^ 32 := by
    have hT := h.wf.totalPower_pos
    have hsmall := h.small
    have hN := h.wf.nonempty
    simp only [maxValidators] at hlen
    exact Int.mul_le_mul (by omega) (by omega) (by omega) (by omega)
  simp only [maxValidators] at hlen
  omega

theorem raised (hv : vs.validators[i]? = some v) :
    (raisePriority v).proposerPriority = vs.priority i + vs.power i := by
  have hhigh := h.high hv
  have hpower := h.power_le hv
  have hsmall := h.small
  rw [priority_raisePriority (by simp only [maxTotalVotingPower]; omega),
    priority_of_getElem? hv, h.wf.power_of_getElem? hv]

/-- The charged validator has the greatest priority after the raise. -/
theorem picks :
    ∃ p, pickProposer (vs.validators.map raisePriority) = some p ∧
      h.wf.electorate.Picks vs.priority p.index := by
  have hne : vs.validators.map raisePriority ≠ [] := by
    have := h.wf.nonempty
    intro hnil
    simp [List.map_eq_nil_iff.mp hnil] at this
  obtain ⟨p, hpick, hmem, hmax⟩ := pickProposer_spec hne
  obtain ⟨w, hw, rfl⟩ := List.mem_map.mp hmem
  obtain ⟨j, hj⟩ := List.mem_iff_getElem?.mp hw
  have hindex : (raisePriority w).index = j :=
    (congrArg NamedValidator.index (identity_raisePriority w)).trans (h.wf.index_eq j w hj)
  refine ⟨_, hpick, ?_⟩
  rw [hindex]
  refine ⟨h.mem_lt hj, fun i hi => ?_⟩
  have hv := List.getElem?_eq_getElem (Finset.mem_range.mp hi)
  have := hmax _ (List.mem_map_of_mem (List.mem_of_getElem? hv))
  rwa [h.raised hv, h.raised hj] at this

/-- `rotateOnce` is one turn: everybody earns their power and the picked one pays. -/
theorem rotateOnce_priority {p : NamedValidator}
    (hp : pickProposer (vs.validators.map raisePriority) = some p)
    (hv : (rotateOnce vs.totalPower vs.validators)[i]? = some v) :
    v.proposerPriority = h.wf.electorate.charge vs.priority p.index i := by
  unfold rotateOnce at hv
  dsimp only at hv
  rw [hp] at hv
  simp only [List.getElem?_map, Option.map_map, Option.map_eq_some_iff] at hv
  obtain ⟨w, hw, rfl⟩ := hv
  have hindex : (raisePriority w).index = i :=
    (congrArg NamedValidator.index (identity_raisePriority w)).trans (h.wf.index_eq i w hw)
  unfold Electorate.charge
  rw [h.wf.total_electorate]
  show (if _ then _ else _ : NamedValidator).proposerPriority = vs.priority i + vs.power i - _
  rw [hindex, ← h.raised hw]
  split
  · have hlow := h.low hw
    have hpos := h.wf.power_pos w (List.mem_of_getElem? hw)
    have hsmall := h.small
    refine priority_lowerPriority ?_
    rw [h.raised hw, priority_of_getElem? hw, h.wf.power_of_getElem? hw]
    simp only [maxTotalVotingPower]
    omega
  · exact (sub_zero _).symm

/-- A set with the members of a balanced one and the priorities after a turn. -/
theorem of_charge {ws : ValidatorSet} (hm : ws.members = vs.members) (hwf : ws.Wf)
    (ht : ws.totalPower = vs.totalPower) {j : Nat} (hpick : h.wf.electorate.Picks vs.priority j)
    (hp : ws.priority = h.wf.electorate.charge vs.priority j) : Balanced ws := by
  have hE := h.wf.electorate_eq hwf hm
  have htotal : 0 < h.wf.electorate.total := by
    rw [h.wf.total_electorate]
    exact h.wf.totalPower_pos
  have hlen : ws.validators.length = vs.validators.length := by
    simpa [members] using congrArg List.length hm
  refine { wf := hwf, small := ht ▸ h.small, solvent := ?_, sum_lt := ?_ }
  · rw [hE, hp]
    exact h.solvent.charge htotal hpick
  · rw [hE, hp, Electorate.sum_charge hpick.mem, hlen]
    exact h.sum_lt

/-- Centering leaves balanced priorities as they are. -/
theorem centered : centerPriorities vs.validators = vs.validators := by
  have hlen := h.wf.length_le
  have hsmall := h.small
  have hT := h.wf.totalPower_pos
  have hbound : (vs.validators.length : Int) * (vs.totalPower + 1) ≤ 65535 * (2 ^ 32 + 1) := by
    simp only [maxValidators] at hlen
    exact Int.mul_le_mul (by omega) (by omega) (by omega) (by omega)
  have hsum := sum_priority vs
  refine centerPriorities_eq_self hT.le (fun v hv => ?_) (fun v hv => ?_) ?_ ?_ ?_
  · obtain ⟨i, hi⟩ := List.mem_iff_getElem?.mp hv
    exact (h.low hi).le
  · obtain ⟨i, hi⟩ := List.mem_iff_getElem?.mp hv
    exact (h.high hi).trans (by decide)
  · exact hbound.trans (by decide)
  · rw [← hsum]
    exact h.solvent.sum_nonneg
  · rw [← hsum]
    exact h.sum_lt

/-- **A step of the rotation is a turn of the round robin.** -/
theorem step : ∃ j, vs.charged = some j ∧
    h.wf.electorate.Picks vs.priority j ∧
    (vs.withIncrementedPriority 1).priority = h.wf.electorate.charge vs.priority j ∧
    Balanced (vs.withIncrementedPriority 1) := by
  obtain ⟨p, hp, hpick⟩ := h.picks
  -- The set before centering: centering will turn out to do nothing.
  let ws : ValidatorSet :=
    { vs.copy with validators := rotateOnce vs.totalPower vs.validators }
  have hm : ws.members = vs.members := identity_rotateOnce vs.totalPower vs.validators
  have hwf : ws.Wf := h.wf.copy.of_members hm rfl fun _ => rfl
  have hprio : ws.priority = h.wf.electorate.charge vs.priority p.index := by
    funext i
    cases hv : ws.validators[i]? with
    | some v => rw [priority_of_getElem? hv, h.rotateOnce_priority hp hv]
    | none =>
      have hlen : ws.validators.length = vs.validators.length := by
        simpa [members] using congrArg List.length hm
      have hi : vs.validators.length ≤ i := hlen ▸ List.getElem?_eq_none_iff.mp hv
      have hne : i ≠ p.index := by
        have := Finset.mem_range.mp hpick.mem
        omega
      have hnone : vs.validators[i]? = none := List.getElem?_eq_none hi
      have hpower : h.wf.electorate.weight i = 0 := by
        show vs.power i = 0
        rw [power, h.wf.getByIndex_eq, hnone]
        rfl
      rw [Electorate.charge, hpower, if_neg hne, priority, priority, hv, hnone]
      rfl
  have hws : Balanced ws := h.of_charge hm hwf rfl hpick hprio
  have hvals : (vs.withIncrementedPriority 1).validators = ws.validators := by
    have hne : vs.copy.validators.length ≠ 0 := h.wf.copy.nonempty.ne'
    rw [withIncrementedPriority, incrementProposerPriority, if_neg hne]
    exact hws.centered
  have hprio' : (vs.withIncrementedPriority 1).priority = ws.priority := by
    funext i
    rw [priority, priority, hvals]
  have hm' : (vs.withIncrementedPriority 1).members = vs.members :=
    members_withIncrementedPriority vs 1
  refine ⟨p.index, by rw [charged, hp]; rfl, hpick, hprio'.trans hprio, ?_⟩
  exact h.of_charge hm' (h.wf.withIncrementedPriority 1)
    (totalPower_incrementProposerPriority vs.copy 1) hpick (hprio'.trans hprio)

/-- A run of the rotation is a run of the round robin, paid by the charged validators. -/
theorem turns : ∀ n, Balanced (vs.successive n) ∧
    (vs.successive n).members = vs.members ∧
    ∃ l : List Nat, l.length = n ∧
      h.wf.electorate.Turns vs.priority l (vs.successive n).priority ∧
      ∀ i, l.count i = (List.range n).countP fun k => (vs.successive k).charged == some i
  | 0 => ⟨h, rfl, [], rfl, .start, fun _ => rfl⟩
  | n + 1 => by
    obtain ⟨hbal, hm, l, hlen, hturns, hcount⟩ := turns n
    obtain ⟨j, hcharged, hpick, hprio, hnext⟩ := hbal.step
    rw [h.wf.electorate_eq hbal.wf hm] at hpick hprio
    have hm' : (vs.successive (n + 1)).members = vs.members :=
      (members_withIncrementedPriority (vs.successive n) 1).trans hm
    refine ⟨hnext, hm', l ++ [j], by rw [List.length_append, hlen]; rfl, ?_, fun i => ?_⟩
    · rw [successive, hprio]
      exact .next hturns hpick
    · rw [List.range_succ, List.countP_append, List.count_append, hcount,
        List.countP_singleton, hcharged, List.count_singleton]
      simp

end Balanced

/-! ## The first set -/

/-- The loop copies priorities as they are. -/
theorem priority_addValidators {validators : List (Option NamedValidator)} {built : ValidatorSet}
    (h : addValidators 0 validators empty = .ok built)
    (hzero : ∀ v, some v ∈ validators → v.proposerPriority = 0) :
    ∀ v ∈ built.validators, v.proposerPriority = 0 := by
  refine addValidators_rule (P := fun _ vs => ∀ v ∈ vs.validators, v.proposerPriority = 0)
    validators 0 _ built h (by simp [empty]) fun j w ws hw _ hws _ v hv => ?_
  rcases List.mem_append.mp hv with hv | hv
  · exact hws v hv
  · rw [List.mem_singleton.mp hv]
    exact hzero w hw

/-- The first priorities: the voting powers, less their average. -/
theorem initProposerPriorities_eq (hpos : ∀ v ∈ vals, 0 < v.votingPower)
    (hsum : (vals.map NamedValidator.votingPower).sum ≤ maxTotalVotingPower) :
    initProposerPriorities vals = vals.map fun v =>
      { v with
        proposerPriority :=
          v.votingPower - (vals.map NamedValidator.votingPower).sum / vals.length } := by
  simp only [maxTotalVotingPower] at hsum
  let start := vals.map fun v => { v with proposerPriority := v.votingPower }
  have hstart : start.map NamedValidator.proposerPriority
      = vals.map NamedValidator.votingPower := by
    rw [List.map_map]
    rfl
  have hnonneg : 0 ≤ (vals.map NamedValidator.votingPower).sum :=
    List.sum_nonneg (by simpa using fun v hv => (hpos v hv).le)
  have hprio : prioritySum 0 start = some (vals.map NamedValidator.votingPower).sum := by
    rw [prioritySum_eq le_rfl start 0 ?_ (by simp [minInt64])
      (by rw [hstart]; simp only [maxInt64]; omega), hstart, zero_add]
    intro v hv
    obtain ⟨w, hw, rfl⟩ := List.mem_map.mp hv
    exact (neg_zero (G := Int)).trans_le (hpos w hw).le
  rw [initProposerPriorities]
  show centerPriorities start = _
  unfold centerPriorities
  rw [hprio]
  dsimp only
  rw [List.map_map]
  refine List.map_congr_left fun v hv => ?_
  have hle : v.votingPower ≤ (vals.map NamedValidator.votingPower).sum :=
    List.single_le_sum (by simpa using fun v hv => (hpos v hv).le) _ (List.mem_map_of_mem hv)
  have hv := hpos v hv
  have havg : (vals.map NamedValidator.votingPower).sum / vals.length ≤
      (vals.map NamedValidator.votingPower).sum := Int.ediv_le_self _ hnonneg
  have havg₀ : 0 ≤ (vals.map NamedValidator.votingPower).sum / vals.length :=
    Int.ediv_nonneg hnonneg (Int.natCast_nonneg _)
  have hlen : start.length = vals.length := List.length_map _
  have hwrap : wrapInt64 (v.votingPower - (vals.map NamedValidator.votingPower).sum / vals.length)
      = v.votingPower - (vals.map NamedValidator.votingPower).sum / vals.length :=
    Int.bmod_eq_of_le (by norm_num; omega) (by norm_num; omega)
  simp only [Function.comp_apply, hlen, Int.tdiv_eq_ediv_of_nonneg hnonneg, hwrap]

/-- A new set starts with the powers as priorities, less their average. -/
theorem newValidatorSet_priority {validators : List (Option NamedValidator)}
    (h : newValidatorSet validators = .ok vs)
    (hzero : ∀ v, some v ∈ validators → v.proposerPriority = 0) (hv : v ∈ vs.validators) :
    v.proposerPriority = v.votingPower - vs.totalPower / vs.validators.length := by
  obtain ⟨-, hmax, built, hadd, hset⟩ := newValidatorSet_ok h
  have hall := priority_addValidators hadd hzero
  have hinit : built.validators.all (·.proposerPriority == 0) := by
    rw [List.all_eq_true]
    exact fun v hv => beq_iff_eq.mpr (hall v hv)
  have hb := building_addValidators hmax hadd
  have hvals := hset.validators
  rw [if_pos hinit, initProposerPriorities_eq hb.power_pos (hb.total_eq ▸ hb.total_le)] at hvals
  rw [hvals] at hv ⊢
  obtain ⟨w, hw, rfl⟩ := List.mem_map.mp hv
  rw [hset.totalPower, hb.total_eq, List.length_map]

/-- A new set is balanced. -/
theorem balanced_newValidatorSet {validators : List (Option NamedValidator)}
    (h : newValidatorSet validators = .ok vs)
    (hzero : ∀ v, some v ∈ validators → v.proposerPriority = 0) (hsmall : vs.totalPower ≤ 2 ^ 32) :
    Balanced vs := by
  have hwf := wf_newValidatorSet h
  have hT := hwf.totalPower_pos
  have hN : 0 < (vs.validators.length : Int) := by exact_mod_cast hwf.nonempty
  have hsum : ∑ i ∈ Finset.range vs.validators.length, vs.priority i
      = vs.totalPower % vs.validators.length := by
    have hterm : ∀ i ∈ Finset.range vs.validators.length, vs.priority i
        = hwf.electorate.weight i - vs.totalPower / vs.validators.length := by
      intro i hi
      have hv := List.getElem?_eq_getElem (Finset.mem_range.mp hi)
      rw [priority_of_getElem? hv,
        newValidatorSet_priority h hzero (List.mem_of_getElem? hv)]
      exact congrArg (· - _) (hwf.power_of_getElem? hv).symm
    have htotal : ∑ i ∈ Finset.range vs.validators.length, hwf.electorate.weight i
        = vs.totalPower := hwf.total_electorate
    rw [Finset.sum_congr rfl hterm, Finset.sum_sub_distrib, htotal, Finset.sum_const,
      Finset.card_range, nsmul_eq_mul, Int.emod_def]
  refine { wf := hwf, small := hsmall, solvent := ⟨?_, fun i hi => ?_⟩, sum_lt := ?_ }
  · exact hsum ▸ Int.emod_nonneg _ hN.ne'
  · have hv := List.getElem?_eq_getElem (Finset.mem_range.mp hi)
    have hpos := hwf.power_pos _ (List.mem_of_getElem? hv)
    have havg : vs.totalPower / vs.validators.length ≤ vs.totalPower :=
      Int.ediv_le_self _ hT.le
    rw [hwf.total_electorate, priority_of_getElem? hv,
      newValidatorSet_priority h hzero (List.mem_of_getElem? hv)]
    omega
  · exact hsum ▸ Int.emod_lt_of_pos _ hN

/-! ## Proportionality -/

/-- **Validators are charged in proportion to their power.** -/
theorem charged_proportional {validators : List (Option NamedValidator)}
    (h : newValidatorSet validators = .ok vs)
    (hzero : ∀ v, some v ∈ validators → v.proposerPriority = 0) (hsmall : vs.totalPower ≤ 2 ^ 32)
    (n : Nat) (hv : vs.getByIndex i = some v) :
    |((List.range n).countP fun k => (vs.successive k).charged == some i) * vs.totalPower
      - n * v.votingPower| ≤ vs.size * vs.totalPower := by
  have hbal := balanced_newValidatorSet h hzero hsmall
  have hT := hbal.wf.totalPower_pos
  have hE := hbal.wf.total_electorate
  rw [hbal.wf.getByIndex_eq] at hv
  obtain ⟨-, -, l, hlen, hturns, hcount⟩ := hbal.turns n
  rw [← hcount]
  have hpaid := hturns.paid_le (hE ▸ hT) hbal.solvent (hbal.mem_lt hv)
  have hearned := hturns.earned_le (hE ▸ hT) hbal.solvent (hbal.mem_lt hv)
  have hweight : hbal.wf.electorate.weight i = v.votingPower := hbal.wf.power_of_getElem? hv
  have hcard : hbal.wf.electorate.members.card = vs.size := Finset.card_range _
  rw [hE, hweight, hlen, priority_of_getElem? hv,
    newValidatorSet_priority h hzero (List.mem_of_getElem? hv)] at hpaid hearned
  rw [hcard] at hearned
  -- What is left is arithmetic: the start priorities are between zero and the total power.
  have hle := hbal.power_le hv
  have hpos := hbal.wf.power_pos v (List.mem_of_getElem? hv)
  have hsum := hbal.sum_lt
  have hN : 1 ≤ (vs.size : Int) := by exact_mod_cast hbal.wf.nonempty
  have havg : vs.totalPower / vs.size ≤ vs.totalPower := Int.ediv_le_self _ hT.le
  have havg₀ : 0 ≤ vs.totalPower / vs.size := Int.ediv_nonneg hT.le (by omega)
  have hmul : ((vs.size : Int) - 1) * (vs.totalPower - 1)
      = vs.size * vs.totalPower - vs.size - vs.totalPower + 1 := by ring
  rw [hmul] at hearned
  change _ < (vs.size : Int) at hsum
  change _ < v.votingPower - vs.totalPower / vs.size + _ at hpaid
  change _ ≤ _ - (v.votingPower - vs.totalPower / vs.size) at hearned
  have hstart : v.votingPower - vs.totalPower / vs.size + vs.totalPower
      ≤ vs.size * vs.totalPower := by
    rcases hN.eq_or_lt with hone | htwo
    · rw [← hone, Int.ediv_one]
      omega
    · have : 2 * vs.totalPower ≤ vs.size * vs.totalPower :=
        Int.mul_le_mul_of_nonneg_right htwo hT.le
      omega
  rw [abs_le]
  omega

/-- Proposers come up in proportion to their power, up to the number of validators, as
long as each set names as proposer the validator that the next increment charges. -/
theorem proportional_rotation {validators : List (Option NamedValidator)} {vs : ValidatorSet}
    (h : newValidatorSet validators = .ok vs)
    (hzero : ∀ v, some v ∈ validators → v.proposerPriority = 0)
    (hsmall : vs.totalPower ≤ 2 ^ 32) (n : Nat)
    (hproposer : ∀ k < n, (vs.successive k).proposerIndex = (vs.successive k).charged)
    (i : Nat) (v : NamedValidator) (hv : vs.getByIndex i = some v) :
    |(vs.appearances n i : ℚ) - n * v.votingPower / vs.totalPower| ≤ vs.size := by
  have hsame : vs.appearances n i
      = (List.range n).countP fun k => (vs.successive k).charged == some i :=
    List.countP_congr fun k hk => by rw [hproposer k (List.mem_range.mp hk)]
  have hT : (0 : ℚ) < vs.totalPower := by
    exact_mod_cast (wf_newValidatorSet h).totalPower_pos
  have hbound := charged_proportional h hzero hsmall n hv
  rw [← hsame] at hbound
  have hdiff : (vs.appearances n i : ℚ) - n * v.votingPower / vs.totalPower
      = (vs.appearances n i * vs.totalPower - n * v.votingPower) / vs.totalPower := by
    field_simp
  rw [hdiff, abs_div, abs_of_pos hT, div_le_iff₀ hT]
  exact_mod_cast hbound

/-- Two validators with the given powers. -/
def pair (p q : Int) : List (Option NamedValidator) :=
  [some ⟨⟨some [1]⟩, 0, ⟨[]⟩, p, 0⟩, some ⟨⟨some [2]⟩, 0, ⟨[]⟩, q, 0⟩]

/-- The set that `NewValidatorSet` makes of them. -/
def pairSet (p q : Int) : ValidatorSet :=
  ((newValidatorSet (pair p q)).toOption).getD ⟨[], none, 0, ∅, ∅⟩

/-- The weaker of two validators with powers 1 and 3 proposes every other block: after
seven sets it is more than two ahead of its share. -/
theorem biased_rotation : newValidatorSet (pair 1 3) = .ok (pairSet 1 3) ∧
    (∀ w, some w ∈ pair 1 3 → w.proposerPriority = 0) ∧ (pairSet 1 3).totalPower ≤ 2 ^ 32 ∧
    ∃ v, (pairSet 1 3).getByIndex 0 = some v ∧
      ¬ |((pairSet 1 3).appearances 7 0 : ℚ) - (7 : ℕ) * v.votingPower / (pairSet 1 3).totalPower|
        ≤ (pairSet 1 3).size := by
  refine ⟨rfl, by simp [pair], by decide +kernel, _, rfl, ?_⟩
  have hcount : (pairSet 1 3).appearances 7 0 = 4 := by decide +kernel
  have htotal : (pairSet 1 3).totalPower = 4 := by decide +kernel
  have hsize : (pairSet 1 3).size = 2 := by decide +kernel
  rw [hcount, htotal, hsize]
  norm_num [abs_le]

theorem proportional_rotation_pair :
    (∀ k < 6, ((pairSet 1 2).successive k).proposerIndex = ((pairSet 1 2).successive k).charged) ∧
    ∀ i v, (pairSet 1 2).getByIndex i = some v →
      |((pairSet 1 2).appearances 6 i : ℚ) - (6 : ℕ) * v.votingPower / (pairSet 1 2).totalPower|
        ≤ (pairSet 1 2).size := by
  have hproposer : ∀ k < 6, ((pairSet 1 2).successive k).proposerIndex
      = ((pairSet 1 2).successive k).charged := by decide +kernel
  have hset : newValidatorSet (pair 1 2) = .ok (pairSet 1 2) := rfl
  exact ⟨hproposer, proportional_rotation hset (by simp [pair]) (by decide +kernel) 6 hproposer⟩

end ValidatorSet

end Leaderberry
