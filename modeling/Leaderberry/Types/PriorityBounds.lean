import Leaderberry.Types.Rotation

/-!
# The range of priorities

The source clamps priorities in `IncrementProposerPriority`, centers them with a truncated
average and guards the sum behind that average against overflow. `Exact` holds the same
functions with every `int64` addition and subtraction of the source made explicit: one that
does not fit has no result. They always have one.

- `Windowed` is the invariant of the loop: no priority is below the window, and together the
  priorities stay below the number of validators. A charge takes what the raises gave, except
  when the charged validator is at the bottom of the window. But it has the greatest priority,
  so then nobody is above zero.
- Hence the average is never positive, and centering only moves priorities up
  (`Windowed.center`).
- `priorities_exact`: over any sequence of rotations of a new set.
-/

namespace Leaderberry

namespace ValidatorSet

variable {t : Int} {v : NamedValidator}

/-! ## Exact arithmetic -/

namespace Exact

/-- An `int64` addition. -/
def add (x y : Int) : Option Int :=
  if minInt64 ≤ x + y ∧ x + y ≤ maxInt64 then some (x + y) else none

/-- An `int64` subtraction. -/
def sub (x y : Int) : Option Int :=
  if minInt64 ≤ x - y ∧ x - y ≤ maxInt64 then some (x - y) else none

theorem add_eq {x y : Int} (h : minInt64 ≤ x + y ∧ x + y ≤ maxInt64) : add x y = some (x + y) :=
  if_pos h

theorem sub_eq {x y : Int} (h : minInt64 ≤ x - y ∧ x - y ≤ maxInt64) : sub x y = some (x - y) :=
  if_pos h

/-- `sum += v.ProposerPriority` with its two guards; the inner `none` is the source's overflow
flag. -/
def prioritySum : Int → List NamedValidator → Option (Option Int)
  | sum, [] => some (some sum)
  | sum, v :: rest => do
    let exceeds ←
      if 0 < v.proposerPriority then
        (sub maxInt64 v.proposerPriority).map fun limit => decide (limit < sum)
      else some false
    if exceeds then some none
    else
      let under ←
        if v.proposerPriority < 0 then
          (sub minInt64 v.proposerPriority).map fun limit => decide (sum < limit)
        else some false
      if under then some none
      else
        let next ← add sum v.proposerPriority
        prioritySum next rest

/-- `centerPriorities`. -/
def centerPriorities (vals : List NamedValidator) : Option (List NamedValidator) := do
  let sum ← prioritySum 0 vals
  let avg := (sum.map fun s => s.tdiv vals.length).getD 0
  vals.mapM fun v => do
    let priority ← sub v.proposerPriority avg
    some { v with proposerPriority := priority }

/-- First loop of `IncrementProposerPriority`. -/
def raisePriority (v : NamedValidator) : Option NamedValidator := do
  let maxPriority := priorityWindowSize / 2
  let exceeds ←
    if 0 < v.votingPower then
      (sub maxPriority v.votingPower).map fun limit => decide (limit < v.proposerPriority)
    else some false
  if exceeds then some { v with proposerPriority := maxPriority }
  else
    let priority ← add v.proposerPriority v.votingPower
    some { v with proposerPriority := min priority maxPriority }

/-- Second half. -/
def lowerPriority (totalPower : Int) (v : NamedValidator) : Option NamedValidator := do
  let minPriority := -priorityWindowSize / 2
  let under ←
    if 0 < totalPower then
      (add minPriority totalPower).map fun limit => decide (v.proposerPriority < limit)
    else some false
  if under then some { v with proposerPriority := minPriority }
  else
    let priority ← sub v.proposerPriority totalPower
    some { v with proposerPriority := max priority minPriority }

/-- One iteration of `IncrementProposerPriority`. -/
def rotateOnce (totalPower : Int) (vals : List NamedValidator) : Option (List NamedValidator) := do
  let raised ← vals.mapM raisePriority
  match pickProposer raised with
  | none => some raised
  | some p => raised.mapM fun v => if v.index = p.index then lowerPriority totalPower v else some v

def rotate (totalPower : Int) : Nat → List NamedValidator → Option (List NamedValidator)
  | 0, vals => some vals
  | n + 1, vals => do
    let next ← rotateOnce totalPower vals
    rotate totalPower n next

/-- `IncrementProposerPriority`. -/
def incrementProposerPriority (vs : ValidatorSet) (times : Int) : Option ValidatorSet :=
  if vs.validators.length = 0 then some vs
  else do
    let rotated ← rotate vs.totalPower times.toNat vs.validators
    let vals ← centerPriorities rotated
    some { vs with validators := vals, proposer := pickProposer vals }

end Exact

/-! ## The window -/

theorem mapM_eq_map {α β : Type} {f : α → Option β} {g : α → β} {l : List α}
    (h : ∀ a ∈ l, f a = some (g a)) : l.mapM f = some (l.map g) := by
  induction l with
  | nil => rfl
  | cons a l ih =>
    obtain ⟨ha, hl⟩ := List.forall_mem_cons.mp h
    rw [List.mapM_cons, ha, ih hl]
    rfl

theorem half_window : priorityWindowSize / 2 = maxTotalVotingPower := by decide

theorem neg_half_window : -priorityWindowSize / 2 = -maxTotalVotingPower := by decide

/-- Four times the window still fits into an `int64`. -/
theorem fits {x : Int} (hlow : -(4 * maxTotalVotingPower) ≤ x)
    (hhigh : x ≤ 4 * maxTotalVotingPower) : minInt64 ≤ x ∧ x ≤ maxInt64 := by
  simp only [maxTotalVotingPower, minInt64, maxInt64] at hlow hhigh ⊢
  omega

/-- What a validator brings into a step: a power and a priority for which nothing wraps. -/
structure InWindow (v : NamedValidator) : Prop where
  power_pos : 0 < v.votingPower
  power_le : v.votingPower ≤ maxTotalVotingPower
  low : -maxTotalVotingPower ≤ v.proposerPriority
  high : v.proposerPriority ≤ 2 * maxTotalVotingPower

namespace InWindow

variable {v : NamedValidator}

/-- A raise stays in the window and gives at most the voting power. -/
theorem raise (h : InWindow v) : -maxTotalVotingPower ≤ (raisePriority v).proposerPriority ∧
    (raisePriority v).proposerPriority ≤ maxTotalVotingPower ∧
    (raisePriority v).proposerPriority ≤ v.proposerPriority + v.votingPower := by
  have hpos := h.power_pos
  have hlow := h.low
  have hM : 0 < maxTotalVotingPower := by decide
  unfold raisePriority
  rw [half_window]
  dsimp only
  split
  · dsimp only
    omega
  · dsimp only
    omega

theorem raise_exact (h : InWindow v) : Exact.raisePriority v = some (raisePriority v) := by
  have hpos := h.power_pos
  have hpower := h.power_le
  have hlow := h.low
  have hhigh := h.high
  have hlimit := fits (x := maxTotalVotingPower - v.votingPower) (by omega) (by omega)
  have hsum := fits (x := v.proposerPriority + v.votingPower) (by omega) (by omega)
  unfold Exact.raisePriority raisePriority
  rw [half_window]
  dsimp only
  rw [if_pos hpos, Exact.sub_eq hlimit]
  simp only [Option.map_some, Option.bind_eq_bind, Option.bind_some, decide_eq_true_eq]
  by_cases hover : maxTotalVotingPower - v.votingPower < v.proposerPriority
  · rw [if_pos hover, if_pos ⟨hpos, hover⟩]
  · rw [if_neg hover, if_neg (fun h => hover h.2), Exact.add_eq hsum]
    rfl

end InWindow

/-- A charge does not leave the window, and is the total power unless it hits the bottom. -/
theorem lowerPriority_cases :
    (v.proposerPriority < t - maxTotalVotingPower ∧
      (lowerPriority t v).proposerPriority = -maxTotalVotingPower) ∨
    (t - maxTotalVotingPower ≤ v.proposerPriority ∧
      (lowerPriority t v).proposerPriority = v.proposerPriority - t) := by
  unfold lowerPriority
  rw [neg_half_window]
  dsimp only
  split
  · dsimp only
    omega
  · dsimp only
    omega

theorem le_lowerPriority :
    -maxTotalVotingPower ≤ (lowerPriority t v).proposerPriority := by
  rcases lowerPriority_cases (t := t) (v := v) with ⟨-, heq⟩ | ⟨hroom, heq⟩
  · exact heq.ge
  · rw [heq]
    omega

theorem lowerPriority_le (ht : 0 ≤ t) (hlow : -maxTotalVotingPower ≤ v.proposerPriority) :
    (lowerPriority t v).proposerPriority ≤ v.proposerPriority := by
  rcases lowerPriority_cases (t := t) (v := v) with ⟨-, heq⟩ | ⟨-, heq⟩
  · rw [heq]
    exact hlow
  · rw [heq]
    omega

theorem lowerPriority_exact (ht : 0 < t) (hle : t ≤ maxTotalVotingPower)
    (hlow : -maxTotalVotingPower ≤ v.proposerPriority)
    (hhigh : v.proposerPriority ≤ 2 * maxTotalVotingPower) :
    Exact.lowerPriority t v = some (lowerPriority t v) := by
  have hlimit := fits (x := -maxTotalVotingPower + t) (by omega) (by omega)
  have hdiff := fits (x := v.proposerPriority - t) (by omega) (by omega)
  unfold Exact.lowerPriority lowerPriority
  rw [neg_half_window]
  dsimp only
  rw [if_pos ht, Exact.add_eq hlimit]
  simp only [Option.map_some, Option.bind_eq_bind, Option.bind_some, decide_eq_true_eq]
  by_cases hunder : v.proposerPriority < -maxTotalVotingPower + t
  · rw [if_pos hunder, if_pos ⟨ht, hunder⟩]
  · rw [if_neg hunder, if_neg (fun h => hunder h.2), Exact.sub_eq hdiff]
    rfl

/-! ## The loop -/

theorem Wf.power_le_total {vs : ValidatorSet} (h : vs.Wf) (hv : v ∈ vs.validators) :
    v.votingPower ≤ vs.totalPower := by
  rw [h.total_eq]
  exact List.single_le_sum (by simpa using fun w hw => (h.power_pos w hw).le) _
    (List.mem_map_of_mem hv)

theorem Wf.index_nodup {vs : ValidatorSet} (h : vs.Wf) :
    (vs.validators.map NamedValidator.index).Nodup := by
  have hrange : vs.validators.map NamedValidator.index = List.range vs.validators.length := by
    refine List.ext_getElem (by simp) fun i hi _ => ?_
    rw [List.getElem_map, List.getElem_range]
    exact h.index_eq i _ (List.getElem?_eq_getElem (by simpa using hi))
  rw [hrange]
  exact List.nodup_range

theorem index_raisePriority (v : NamedValidator) : (raisePriority v).index = v.index := by
  have hidentity := congrArg NamedValidator.index (identity_raisePriority v)
  exact hidentity

/-- The priorities of a set, added up. -/
def prioritiesSum (vals : List NamedValidator) : Int :=
  (vals.map NamedValidator.proposerPriority).sum

/-- The invariant of the rotation. -/
structure Windowed (vs : ValidatorSet) : Prop where
  wf : vs.Wf
  low : ∀ v ∈ vs.validators, -maxTotalVotingPower ≤ v.proposerPriority
  high : ∀ v ∈ vs.validators, v.proposerPriority ≤ 2 * maxTotalVotingPower
  sum_lt : prioritiesSum vs.validators < vs.validators.length

namespace Windowed

variable {vs : ValidatorSet}

theorem length_of_identity {vals : List NamedValidator}
    (hvals : vals.map NamedValidator.identity = vs.validators.map NamedValidator.identity) :
    vals.length = vs.validators.length := by
  simpa using congrArg List.length hvals

section

variable (h : Windowed vs)

include h

theorem inWindow {v : NamedValidator} (hv : v ∈ vs.validators) : InWindow v where
  power_pos := h.wf.power_pos v hv
  power_le := (h.wf.power_le_total hv).trans h.wf.total_le
  low := h.low v hv
  high := h.high v hv

/-- The raises give everybody together at most the total power. -/
theorem sum_raised :
    prioritiesSum (vs.validators.map raisePriority) ≤
      prioritiesSum vs.validators + vs.totalPower := by
  have hsum : prioritiesSum vs.validators + vs.totalPower =
      (vs.validators.map fun v => v.proposerPriority + v.votingPower).sum := by
    rw [h.wf.total_eq]
    exact List.sum_map_add.symm
  rw [hsum, prioritiesSum, List.map_map]
  exact List.sum_le_sum fun v hv => (h.inWindow hv).raise.2.2

/-- The validator that pays, and what everybody has afterwards. -/
theorem rotateOnce_eq :
    ∃ p, pickProposer (vs.validators.map raisePriority) = some p ∧
    p ∈ vs.validators.map raisePriority ∧
    (∀ v ∈ vs.validators.map raisePriority, v.proposerPriority ≤ p.proposerPriority) ∧
    rotateOnce vs.totalPower vs.validators = (vs.validators.map raisePriority).map fun v =>
      if v.index = p.index then lowerPriority vs.totalPower v else v := by
  have hne : vs.validators.map raisePriority ≠ [] := by
    have := h.wf.nonempty
    intro hnil
    rw [List.map_eq_nil_iff.mp hnil] at this
    exact absurd this (lt_irrefl 0)
  obtain ⟨p, hp, hmem, hmax⟩ := pickProposer_spec hne
  refine ⟨p, hp, hmem, hmax, ?_⟩
  unfold rotateOnce
  dsimp only
  rw [hp]

/-- Only one validator pays, so the sum changes by what it pays. -/
theorem sum_rotateOnce {p : NamedValidator} (hmem : p ∈ vs.validators.map raisePriority) :
    prioritiesSum ((vs.validators.map raisePriority).map fun v =>
      if v.index = p.index then lowerPriority vs.totalPower v else v) =
    prioritiesSum (vs.validators.map raisePriority) - p.proposerPriority +
      (lowerPriority vs.totalPower p).proposerPriority := by
  have hnodup : ((vs.validators.map raisePriority).map NamedValidator.index).Nodup := by
    have hindex : (vs.validators.map raisePriority).map NamedValidator.index =
        vs.validators.map NamedValidator.index := by
      rw [List.map_map]
      exact List.map_congr_left fun v _ => index_raisePriority v
    rw [hindex]
    exact h.wf.index_nodup
  have hperm := List.perm_cons_erase hmem
  -- everybody but `p` has another index than `p`
  have hother : ∀ v ∈ (vs.validators.map raisePriority).erase p, v.index ≠ p.index := by
    have hcons := (hperm.map NamedValidator.index).nodup_iff.mp hnodup
    rw [List.map_cons, List.nodup_cons] at hcons
    exact fun v hv heq => hcons.1 (heq ▸ List.mem_map_of_mem hv)
  have hrest : ((vs.validators.map raisePriority).erase p).map (fun v =>
      (if v.index = p.index then lowerPriority vs.totalPower v else v).proposerPriority) =
      ((vs.validators.map raisePriority).erase p).map NamedValidator.proposerPriority :=
    List.map_congr_left fun v hv => by rw [if_neg (hother v hv)]
  unfold prioritiesSum
  rw [List.map_map, (hperm.map _).sum_eq,
    (hperm.map NamedValidator.proposerPriority).sum_eq, List.map_cons, List.map_cons,
    List.sum_cons, List.sum_cons]
  show (if p.index = p.index then _ else p).proposerPriority + (List.map _ _).sum = _
  rw [if_pos rfl]
  have hsum := congrArg List.sum hrest
  change (List.map (NamedValidator.proposerPriority ∘ _) _).sum = _ at hsum
  omega

/-- The set with other priorities. -/
theorem wf_of_identity {vals : List NamedValidator}
    (hvals : vals.map NamedValidator.identity = vs.validators.map NamedValidator.identity) :
    ({ vs with validators := vals } : ValidatorSet).Wf :=
  h.wf.of_members hvals rfl fun _ => rfl

/-- One iteration leaves every priority between the two clamps. -/
theorem rotateOnce_bounds {v : NamedValidator}
    (hv : v ∈ ValidatorSet.rotateOnce vs.totalPower vs.validators) :
    -maxTotalVotingPower ≤ v.proposerPriority ∧ v.proposerPriority ≤ maxTotalVotingPower := by
  have hT := h.wf.totalPower_pos
  obtain ⟨p, -, -, -, heq⟩ := h.rotateOnce_eq
  rw [heq] at hv
  obtain ⟨w, hw, rfl⟩ := List.mem_map.mp hv
  obtain ⟨u, hu, rfl⟩ := List.mem_map.mp hw
  obtain ⟨hlow, hhigh, -⟩ := (h.inWindow hu).raise
  split
  · exact ⟨le_lowerPriority, (lowerPriority_le hT.le hlow).trans hhigh⟩
  · exact ⟨hlow, hhigh⟩

/-- One iteration does not bring the sum to the number of validators. -/
theorem sum_rotateOnce_lt :
    prioritiesSum (ValidatorSet.rotateOnce vs.totalPower vs.validators) <
      (vs.validators.length : Int) := by
  have hT := h.wf.totalPower_pos
  have hTle := h.wf.total_le
  obtain ⟨p, -, hmem, hmax, heq⟩ := h.rotateOnce_eq
  rcases lowerPriority_cases (t := vs.totalPower) (v := p) with ⟨hclamped, -⟩ | ⟨-, hpays⟩
  · -- at the bottom: the greatest priority is negative, so all are
    have hneg : prioritiesSum (ValidatorSet.rotateOnce vs.totalPower vs.validators) ≤ 0 := by
      refine (List.sum_le_card_nsmul _ 0 fun x hx => ?_).trans_eq (nsmul_zero _)
      obtain ⟨v, hv, rfl⟩ := List.mem_map.mp hx
      rw [heq] at hv
      obtain ⟨w, hw, rfl⟩ := List.mem_map.mp hv
      have hle := hmax w hw
      obtain ⟨u, hu, rfl⟩ := List.mem_map.mp hw
      have hlow := (h.inWindow hu).raise.1
      split
      · have hlower := lowerPriority_le hT.le hlow
        omega
      · omega
    have hpos := h.wf.nonempty
    omega
  · -- otherwise the proposer pays all that the raises gave
    have hraise := h.sum_raised
    have hlt := h.sum_lt
    rw [heq, h.sum_rotateOnce hmem, hpays]
    omega

/-- One iteration keeps the invariant, and brings every priority below the upper clamp. -/
theorem rotateOnce :
    Windowed { vs with validators := ValidatorSet.rotateOnce vs.totalPower vs.validators } ∧
      ∀ v ∈ ValidatorSet.rotateOnce vs.totalPower vs.validators,
        v.proposerPriority ≤ maxTotalVotingPower := by
  have hidentity := identity_rotateOnce vs.totalPower vs.validators
  refine ⟨⟨h.wf_of_identity hidentity, fun v hv => (h.rotateOnce_bounds hv).1, fun v hv => ?_, ?_⟩,
    fun v hv => (h.rotateOnce_bounds hv).2⟩
  · have hhigh := (h.rotateOnce_bounds hv).2
    have hM : 0 ≤ maxTotalVotingPower := by decide
    omega
  · show _ < ((ValidatorSet.rotateOnce vs.totalPower vs.validators).length : Int)
    rw [length_of_identity hidentity]
    exact h.sum_rotateOnce_lt

theorem rotateOnce_exact :
    Exact.rotateOnce vs.totalPower vs.validators =
      some (ValidatorSet.rotateOnce vs.totalPower vs.validators) := by
  obtain ⟨p, hp, -, -, heq⟩ := h.rotateOnce_eq
  have hraise : vs.validators.mapM Exact.raisePriority =
      some (vs.validators.map raisePriority) :=
    mapM_eq_map fun v hv => (h.inWindow hv).raise_exact
  unfold Exact.rotateOnce
  rw [hraise, Option.bind_eq_bind, Option.bind_some, hp, heq]
  refine mapM_eq_map fun v hv => ?_
  obtain ⟨w, hw, rfl⟩ := List.mem_map.mp hv
  obtain ⟨hlow, hhigh, -⟩ := (h.inWindow hw).raise
  split
  · exact lowerPriority_exact h.wf.totalPower_pos h.wf.total_le hlow (by omega)
  · rfl

end

/-- All iterations. -/
theorem rotate (n : Nat) : ∀ {vs : ValidatorSet}, Windowed vs →
    Windowed { vs with validators := ValidatorSet.rotate vs.totalPower n vs.validators } ∧
      Exact.rotate vs.totalPower n vs.validators =
        some (ValidatorSet.rotate vs.totalPower n vs.validators) := by
  induction n with
  | zero => exact fun h => ⟨h, rfl⟩
  | succ n ih =>
    intro vs h
    obtain ⟨hrotated, hexact⟩ := ih h.rotateOnce.1
    refine ⟨hrotated, ?_⟩
    unfold Exact.rotate
    rw [h.rotateOnce_exact]
    exact hexact

/-- After at least one iteration no priority is above the clamp. -/
theorem rotate_succ_le (n : Nat) : ∀ {vs : ValidatorSet}, Windowed vs →
    ∀ v ∈ ValidatorSet.rotate vs.totalPower (n + 1) vs.validators,
      v.proposerPriority ≤ maxTotalVotingPower := by
  induction n with
  | zero => exact fun h => h.rotateOnce.2
  | succ n ih =>
    intro vs h
    exact ih h.rotateOnce.1

end Windowed

/-! ## Centering -/

/-- A running sum that was not stopped is the sum. -/
theorem prioritySum_some : ∀ (vals : List NamedValidator) {sum s : Int},
    prioritySum sum vals = some s → s = sum + prioritiesSum vals := by
  intro vals
  induction vals with
  | nil =>
    intro sum s h
    cases h
    simp [prioritiesSum]
  | cons v rest ih =>
    intro sum s h
    unfold prioritySum at h
    split at h
    · cases h
    split at h
    · cases h
    rw [ih h, prioritiesSum, prioritiesSum, List.map_cons, List.sum_cons, add_assoc]

/-- The guards of the running sum keep it in range, and do not leave it themselves. -/
theorem prioritySum_exact : ∀ (vals : List NamedValidator) {sum : Int}, minInt64 ≤ sum →
    sum ≤ maxInt64 → (∀ v ∈ vals, -maxTotalVotingPower ≤ v.proposerPriority) →
    (∀ v ∈ vals, v.proposerPriority ≤ 2 * maxTotalVotingPower) →
    Exact.prioritySum sum vals = some (prioritySum sum vals) := by
  intro vals
  induction vals with
  | nil => exact fun _ _ _ _ => rfl
  | cons v rest ih =>
    intro sum hmin hmax hlow hhigh
    obtain ⟨hv, hlow⟩ := List.forall_mem_cons.mp hlow
    obtain ⟨hv', hhigh⟩ := List.forall_mem_cons.mp hhigh
    have hM : maxTotalVotingPower = 2 ^ 60 := rfl
    have hmin64 : minInt64 = -2 ^ 63 := rfl
    have hmax64 : maxInt64 = 2 ^ 63 - 1 := rfl
    -- once the guards let it through, the sum goes on within the range
    have hnext : minInt64 ≤ sum + v.proposerPriority → sum + v.proposerPriority ≤ maxInt64 →
        ((Exact.add sum v.proposerPriority).bind fun s => Exact.prioritySum s rest) =
          some (prioritySum (sum + v.proposerPriority) rest) := by
      intro hlow' hhigh'
      rw [Exact.add_eq ⟨hlow', hhigh'⟩, Option.bind_some]
      exact ih hlow' hhigh' hlow hhigh
    unfold Exact.prioritySum prioritySum
    -- at most one of the two guards computes anything
    rcases lt_trichotomy v.proposerPriority 0 with hneg | hzero | hpos
    · rw [if_neg (by omega), if_pos hneg, Exact.sub_eq (by omega), if_neg (by omega)]
      simp only [Option.map_some, Option.bind_eq_bind, Option.bind_some, Bool.false_eq_true,
        if_false, decide_eq_true_eq]
      by_cases hunder : sum < minInt64 - v.proposerPriority
      · rw [if_pos hunder, if_pos ⟨hneg, hunder⟩]
      · rw [if_neg hunder, if_neg (fun h => hunder h.2)]
        exact hnext (by omega) (by omega)
    · rw [if_neg (by omega), if_neg (by omega), if_neg (by omega), if_neg (by omega)]
      simp only [Option.bind_eq_bind, Option.bind_some, Bool.false_eq_true, if_false]
      exact hnext (by omega) (by omega)
    · rw [if_pos hpos, Exact.sub_eq (by omega)]
      simp only [Option.map_some, Option.bind_eq_bind, Option.bind_some, decide_eq_true_eq]
      by_cases hover : maxInt64 - v.proposerPriority < sum
      · rw [if_pos hover, if_pos ⟨hpos, hover⟩]
      · have hguard : ¬ (0 < v.proposerPriority ∧ maxInt64 - v.proposerPriority < sum) :=
          fun h => hover h.2
        have hnotneg : ¬ v.proposerPriority < 0 := by omega
        have hguard' : ¬ (v.proposerPriority < 0 ∧ sum < minInt64 - v.proposerPriority) :=
          fun h => hnotneg h.1
        rw [if_neg hover, if_neg hguard, if_neg hnotneg, if_neg hguard']
        simp only [Bool.false_eq_true, if_false]
        exact hnext (by omega) (by omega)

/-- The average that `centerPriorities` subtracts. -/
def average (vals : List NamedValidator) : Int :=
  ((prioritySum 0 vals).map fun s => s.tdiv vals.length).getD 0

theorem centerPriorities_eq (vals : List NamedValidator) : centerPriorities vals =
    vals.map fun v =>
      { v with proposerPriority := wrapInt64 (v.proposerPriority - average vals) } := by
  unfold centerPriorities average
  cases prioritySum 0 vals <;> rfl

/-- Centering has nothing to do: the sum overflows, or it is too small for an average. -/
def CenteredSum (vals : List NamedValidator) : Prop :=
  prioritySum 0 vals = none ∨ -(vals.length : Int) < prioritiesSum vals

namespace Windowed

variable {vs : ValidatorSet}

section

variable (h : Windowed vs)

include h

/-- The average is zero for a centered sum, and otherwise negative. -/
theorem average_cases :
    (average vs.validators = 0 ∧ CenteredSum vs.validators) ∨
    (¬ CenteredSum vs.validators ∧ average vs.validators =
      -(-prioritiesSum vs.validators / vs.validators.length)) := by
  have hN : 0 < (vs.validators.length : Int) := by exact_mod_cast h.wf.nonempty
  have hlt := h.sum_lt
  unfold average CenteredSum
  cases hsum : prioritySum 0 vs.validators with
  | none => exact .inl ⟨rfl, .inl rfl⟩
  | some s =>
    have hs : s = prioritiesSum vs.validators := by rw [prioritySum_some _ hsum, zero_add]
    rw [hs, Option.map_some, Option.getD_some]
    -- Go truncates: a sum of less than one each, of either sign, has average zero
    by_cases hcentered : -(vs.validators.length : Int) < prioritiesSum vs.validators
    · refine .inl ⟨?_, .inr hcentered⟩
      rcases le_or_gt 0 (prioritiesSum vs.validators) with hnonneg | hneg
      · exact Int.tdiv_eq_zero_of_lt hnonneg hlt
      · rw [← neg_neg (prioritiesSum vs.validators), Int.neg_tdiv,
          Int.tdiv_eq_zero_of_lt (by omega) (by omega), neg_zero]
    · refine .inr ⟨fun hor => ?_, ?_⟩
      · rcases hor with hnone | hsome
        · cases hnone
        · exact hcentered hsome
      · rw [← Int.tdiv_eq_ediv_of_nonneg (by omega), Int.neg_tdiv, neg_neg]

/-- The average is in the lower half of the window. -/
theorem average_bounds :
    -maxTotalVotingPower ≤ average vs.validators ∧ average vs.validators ≤ 0 := by
  have hN : 0 < (vs.validators.length : Int) := by exact_mod_cast h.wf.nonempty
  have hM : 0 < maxTotalVotingPower := by decide
  rcases h.average_cases with ⟨hzero, -⟩ | ⟨hnot, heq⟩
  · rw [hzero]
    omega
  · have hneg : prioritiesSum vs.validators ≤ -vs.validators.length :=
      not_lt.mp fun hlt => hnot (.inr hlt)
    have hlow : (vs.validators.length : Int) * -maxTotalVotingPower ≤
        prioritiesSum vs.validators := by
      have hcard := List.card_nsmul_le_sum (vs.validators.map NamedValidator.proposerPriority)
        (-maxTotalVotingPower) (by simpa using h.low)
      rw [List.length_map, nsmul_eq_mul] at hcard
      exact hcard
    have hdiv : -prioritiesSum vs.validators / vs.validators.length ≤ maxTotalVotingPower := by
      refine Int.ediv_le_of_le_mul hN ?_
      rw [mul_comm]
      rw [mul_neg] at hlow
      omega
    have hdiv₀ : 0 ≤ -prioritiesSum vs.validators / vs.validators.length :=
      Int.ediv_nonneg (by omega) hN.le
    omega

/-- Without wrapping: what `centerPriorities` computes. -/
theorem center_eq : centerPriorities vs.validators =
    vs.validators.map fun v =>
      { v with proposerPriority := v.proposerPriority - average vs.validators } := by
  obtain ⟨havg, havg'⟩ := h.average_bounds
  rw [centerPriorities_eq]
  refine List.map_congr_left fun v hv => ?_
  have hlow := h.low v hv
  have hhigh := h.high v hv
  obtain ⟨hmin, hmax⟩ := fits (x := v.proposerPriority - average vs.validators) (by omega)
    (by omega)
  rw [wrapInt64_eq_self hmin hmax]

theorem center_exact :
    Exact.centerPriorities vs.validators = some (centerPriorities vs.validators) := by
  obtain ⟨havg, havg'⟩ := h.average_bounds
  unfold Exact.centerPriorities
  rw [prioritySum_exact vs.validators (by decide) (by decide) h.low h.high, h.center_eq,
    Option.bind_eq_bind, Option.bind_some]
  refine mapM_eq_map fun v hv => ?_
  have hlow := h.low v hv
  have hhigh := h.high v hv
  have hfits := fits (x := v.proposerPriority - average vs.validators) (by omega) (by omega)
  change (Exact.sub v.proposerPriority (average vs.validators)).bind _ = _
  rw [Exact.sub_eq hfits, Option.bind_some]

/-- A centered set stays as it is. -/
theorem center_eq_self (hzero : average vs.validators = 0) :
    centerPriorities vs.validators = vs.validators := by
  rw [h.center_eq, hzero]
  simp only [sub_zero]
  exact List.map_id _

/-- What centering leaves of the sum. -/
theorem sum_center : prioritiesSum (centerPriorities vs.validators) =
    prioritiesSum vs.validators - vs.validators.length * average vs.validators := by
  rw [h.center_eq]
  unfold prioritiesSum
  rw [List.map_map]
  show (vs.validators.map fun v => v.proposerPriority + -average vs.validators).sum = _
  rw [List.sum_map_add, List.map_const', List.sum_replicate, nsmul_eq_mul, mul_neg,
    ← sub_eq_add_neg]

/-- Centering what is below the clamp keeps the invariant and leaves a centered sum. -/
theorem center
    (hclamped : CenteredSum vs.validators ∨
      ∀ v ∈ vs.validators, v.proposerPriority ≤ maxTotalVotingPower) :
    Windowed { vs with validators := centerPriorities vs.validators } ∧
      CenteredSum (centerPriorities vs.validators) := by
  obtain ⟨havg, havg'⟩ := h.average_bounds
  rcases h.average_cases with ⟨hzero, hcentered⟩ | ⟨hnot, heq⟩
  · rw [h.center_eq_self hzero]
    exact ⟨h, hcentered⟩
  have hhigh : ∀ v ∈ vs.validators, v.proposerPriority ≤ maxTotalVotingPower :=
    hclamped.resolve_left hnot
  have hN : 0 < (vs.validators.length : Int) := by exact_mod_cast h.wf.nonempty
  have hlength : (centerPriorities vs.validators).length = vs.validators.length :=
    length_of_identity (identity_centerPriorities vs.validators)
  -- what is left of the sum is the remainder of the division, with its sign
  have hsum : prioritiesSum (centerPriorities vs.validators) =
      -(-prioritiesSum vs.validators % vs.validators.length) := by
    rw [h.sum_center, heq, Int.emod_def]
    ring
  have hmod := Int.emod_nonneg (-prioritiesSum vs.validators) hN.ne'
  have hmod' := Int.emod_lt_of_pos (-prioritiesSum vs.validators) hN
  have hbounds : ∀ v ∈ centerPriorities vs.validators,
      -maxTotalVotingPower ≤ v.proposerPriority ∧
        v.proposerPriority ≤ 2 * maxTotalVotingPower := by
    intro v hv
    rw [h.center_eq] at hv
    obtain ⟨w, hw, rfl⟩ := List.mem_map.mp hv
    have hlow := h.low w hw
    have hle := hhigh w hw
    dsimp only
    omega
  refine ⟨⟨h.wf_of_identity (identity_centerPriorities vs.validators),
    fun v hv => (hbounds v hv).1, fun v hv => (hbounds v hv).2, ?_⟩, .inr ?_⟩
  · show prioritiesSum (centerPriorities vs.validators) <
      ((centerPriorities vs.validators).length : Int)
    rw [hsum, hlength]
    omega
  · rw [hsum, hlength]
    omega

end

end Windowed

/-! ## Sequences of rotations -/

/-- The invariant between the calls. -/
structure Centered (vs : ValidatorSet) : Prop where
  windowed : Windowed vs
  centered : CenteredSum vs.validators

namespace Centered

variable {vs : ValidatorSet}

theorem copy (h : Centered vs) : Centered vs.copy :=
  ⟨⟨h.windowed.wf.copy, h.windowed.low, h.windowed.high, h.windowed.sum_lt⟩, h.centered⟩

/-- The loop of a call, before it centers. -/
theorem rotated (h : Centered vs) (n : Nat) :
    CenteredSum (rotate vs.totalPower n vs.validators) ∨
      ∀ v ∈ rotate vs.totalPower n vs.validators, v.proposerPriority ≤ maxTotalVotingPower := by
  cases n with
  | zero => exact .inl h.centered
  | succ n => exact .inr (h.windowed.rotate_succ_le n)

theorem incrementProposerPriority (h : Centered vs) (times : Int) :
    Centered (vs.incrementProposerPriority times) ∧
      Exact.incrementProposerPriority vs times = some (vs.incrementProposerPriority times) := by
  have hne : vs.validators.length ≠ 0 := h.windowed.wf.nonempty.ne'
  obtain ⟨hrotated, hexact⟩ := h.windowed.rotate times.toNat
  obtain ⟨hwindowed, hcentered⟩ := hrotated.center (h.rotated times.toNat)
  have hcenter := hrotated.center_exact
  dsimp only at hcenter
  unfold ValidatorSet.incrementProposerPriority Exact.incrementProposerPriority
  rw [if_neg hne, if_neg hne, hexact, Option.bind_eq_bind, Option.bind_some, hcenter]
  exact ⟨⟨⟨hwindowed.wf.of_members rfl rfl fun _ => rfl, hwindowed.low, hwindowed.high,
    hwindowed.sum_lt⟩, hcentered⟩, rfl⟩

theorem withIncrementedPriority (h : Centered vs) (times : Int) :
    Centered (vs.withIncrementedPriority times) :=
  (h.copy.incrementProposerPriority times).1

theorem foldl (ns : List Int) : ∀ {vs : ValidatorSet}, Centered vs →
    Centered (ns.foldl ValidatorSet.withIncrementedPriority vs) := by
  induction ns with
  | nil => exact fun h => h
  | cons n ns ih =>
    intro vs h
    exact ih (h.withIncrementedPriority n)

end Centered

/-! ## New sets -/

section new

variable {validators : List (Option NamedValidator)} {vs : ValidatorSet}

/-- The first priorities add up to the remainder of the total power. -/
theorem prioritiesSum_newValidatorSet (h : newValidatorSet validators = .ok vs)
    (hzero : ∀ v, some v ∈ validators → v.proposerPriority = 0) :
    prioritiesSum vs.validators = vs.totalPower % vs.validators.length := by
  have hterms : vs.validators.map NamedValidator.proposerPriority =
      vs.validators.map fun v => v.votingPower + -(vs.totalPower / vs.validators.length) :=
    List.map_congr_left fun v hv => newValidatorSet_priority h hzero hv
  unfold prioritiesSum
  rw [hterms, List.sum_map_add, List.map_const', List.sum_replicate, nsmul_eq_mul, mul_neg,
    ← (wf_newValidatorSet h).total_eq, Int.emod_def, ← sub_eq_add_neg]

/-- The average power of a well-formed set. -/
theorem averagePower_bounds (hwf : vs.Wf) :
    0 ≤ vs.totalPower / vs.validators.length ∧
      vs.totalPower / vs.validators.length ≤ vs.totalPower :=
  ⟨Int.ediv_nonneg hwf.totalPower_pos.le (Int.natCast_nonneg _),
    Int.ediv_le_self _ hwf.totalPower_pos.le⟩

theorem centered_newValidatorSet (h : newValidatorSet validators = .ok vs)
    (hzero : ∀ v, some v ∈ validators → v.proposerPriority = 0) : Centered vs := by
  have hwf := wf_newValidatorSet h
  have hTle := hwf.total_le
  have hN : 0 < (vs.validators.length : Int) := by exact_mod_cast hwf.nonempty
  have hsum := prioritiesSum_newValidatorSet h hzero
  have hmod := Int.emod_nonneg vs.totalPower hN.ne'
  have hmod' := Int.emod_lt_of_pos vs.totalPower hN
  obtain ⟨havg₀, havg⟩ := averagePower_bounds hwf
  refine ⟨⟨hwf, fun v hv => ?_, fun v hv => ?_, by omega⟩, .inr (by omega)⟩
  · have hpos := hwf.power_pos v hv
    rw [newValidatorSet_priority h hzero hv]
    omega
  · have hle := hwf.power_le_total hv
    rw [newValidatorSet_priority h hzero hv]
    omega

/-- The first centering, of the voting powers, is exact too. -/
theorem init_exact (h : newValidatorSet validators = .ok vs)
    (hzero : ∀ v, some v ∈ validators → v.proposerPriority = 0) :
    Exact.centerPriorities
      (vs.validators.map fun v => { v with proposerPriority := v.votingPower }) =
        some vs.validators := by
  have hwf := wf_newValidatorSet h
  have hT := hwf.totalPower_pos
  have hTle := hwf.total_le
  have hM : maxTotalVotingPower = 2 ^ 60 := rfl
  -- the list that is centered: everybody starts from the voting power
  let start := vs.validators.map fun v => { v with proposerPriority := v.votingPower }
  have hpowers : start.map NamedValidator.proposerPriority =
      vs.validators.map NamedValidator.votingPower := by
    rw [List.map_map]
    rfl
  have hbounds : ∀ v ∈ start, 0 < v.proposerPriority ∧ v.proposerPriority ≤ vs.totalPower := by
    intro v hv
    obtain ⟨w, hw, rfl⟩ := List.mem_map.mp hv
    exact ⟨hwf.power_pos w hw, hwf.power_le_total hw⟩
  have hsum : prioritySum 0 start = some vs.totalPower := by
    rw [prioritySum_eq le_rfl start 0 (fun v hv => by have := hbounds v hv; omega)
      (by simp [minInt64]) (by rw [hpowers, ← hwf.total_eq]; simp only [maxInt64]; omega),
      hpowers, ← hwf.total_eq, zero_add]
  have hexact : Exact.prioritySum 0 start = some (prioritySum 0 start) :=
    prioritySum_exact start (by decide) (by decide)
      (fun v hv => by have := hbounds v hv; omega) (fun v hv => by have := hbounds v hv; omega)
  -- the priorities of the new set are what centering leaves of it
  have hself : vs.validators = start.map fun v =>
      { v with proposerPriority := v.votingPower - vs.totalPower / vs.validators.length } := by
    rw [List.map_map]
    conv_lhs => rw [← List.map_id vs.validators]
    refine List.map_congr_left fun v hv => ?_
    rw [Function.comp_apply, ← newValidatorSet_priority h hzero hv]
    rfl
  obtain ⟨havg₀, havg⟩ := averagePower_bounds hwf
  have hlen : start.length = vs.validators.length := List.length_map _
  show Exact.centerPriorities start = some vs.validators
  unfold Exact.centerPriorities
  rw [hexact, hsum, Option.bind_eq_bind, Option.bind_some, Option.map_some, Option.getD_some, hlen,
    Int.tdiv_eq_ediv_of_nonneg hT.le]
  conv_rhs => rw [hself]
  refine mapM_eq_map fun v hv => ?_
  have hv' := hbounds v hv
  obtain ⟨w, -, rfl⟩ := List.mem_map.mp hv
  dsimp only at hv' ⊢
  rw [Exact.sub_eq (fits (by omega) (by omega))]
  rfl

/-- The range of a priority. -/
def InRange (v : NamedValidator) : Prop :=
  -2 ^ 60 ≤ v.proposerPriority ∧ v.proposerPriority ≤ 2 ^ 61

theorem Windowed.inRange (h : Windowed vs) {v : NamedValidator} (hv : v ∈ vs.validators) :
    InRange v ∧ InRange (raisePriority v) := by
  have hlow := h.low v hv
  have hhigh := h.high v hv
  have hraise := (h.inWindow hv).raise
  simp only [maxTotalVotingPower] at hlow hhigh hraise
  unfold InRange
  omega

/-- **Priorities never wrap.** In every set that rotations of a new set reach, and in every
iteration of a further rotation, the priorities are in range before and after the raise; and
no addition or subtraction, here or in the first centering, leaves the range of `int64`. -/
theorem priorities_exact (h : newValidatorSet validators = .ok vs)
    (hzero : ∀ v, some v ∈ validators → v.proposerPriority = 0) (ns : List Int) :
    let ws := ns.foldl withIncrementedPriority vs
    (∀ v ∈ ws.validators, InRange v) ∧
    (∀ n, ∀ v ∈ rotate ws.totalPower n ws.validators, InRange v ∧ InRange (raisePriority v)) ∧
    (∀ times, Exact.incrementProposerPriority ws.copy times =
      some (ws.withIncrementedPriority times)) ∧
    Exact.centerPriorities
      (vs.validators.map fun v => { v with proposerPriority := v.votingPower }) =
        some vs.validators := by
  intro ws
  have hws : Centered ws := (centered_newValidatorSet h hzero).foldl ns
  refine ⟨fun v hv => (hws.windowed.inRange hv).1, fun n v hv => ?_, fun times => ?_,
    init_exact h hzero⟩
  · exact (hws.windowed.rotate n).1.inRange hv
  · exact (hws.copy.incrementProposerPriority times).2

end new

/-- Two validators, one with almost all the power that a set may have. -/
theorem priorities_exact_pair :
    newValidatorSet (pair 1 (2 ^ 60 - 1)) = .ok (pairSet 1 (2 ^ 60 - 1)) ∧
    (∀ v ∈ ([3, 0, 2].foldl withIncrementedPriority (pairSet 1 (2 ^ 60 - 1))).validators,
      InRange v) := by
  have hset : newValidatorSet (pair 1 (2 ^ 60 - 1)) = .ok (pairSet 1 (2 ^ 60 - 1)) := rfl
  exact ⟨hset, (priorities_exact hset (by simp [pair]) [3, 0, 2]).1⟩

end ValidatorSet

end Leaderberry
