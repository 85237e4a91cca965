import Mathlib.Algebra.BigOperators.Group.Finset.Basic
import Mathlib.Algebra.Order.BigOperators.Group.Finset
import Mathlib.Data.Int.Order.Basic
import Mathlib.Tactic.Linarith

/-!
# Weighted quorums

An `Electorate` is a finite set of members with non-negative integer weights. A
quorum is a set of members holding strictly more than two thirds of the total
weight.

- `IsQuorum.inter_power`: two quorums overlap in more than a third of the
  weight.
- `IsQuorum.exists_common`: two quorums share a member outside any set that
  holds at most a third.
- `IsQuorum.exists_mem`: a quorum has a member outside any such set.
-/

/-- Members with weights. -/
structure Electorate (ι : Type*) where
  members : Finset ι
  weight : ι → ℤ
  weight_nonneg : ∀ i, 0 ≤ weight i

namespace Electorate

variable {ι : Type*} (E : Electorate ι)

/-- The weight of a set of members. -/
def power (S : Finset ι) : ℤ := ∑ i ∈ S, E.weight i

/-- The weight of everybody. -/
def total : ℤ := E.power E.members

/-- More than two thirds of the weight. -/
structure IsQuorum (S : Finset ι) : Prop where
  subset : S ⊆ E.members
  two_thirds : 2 * E.total < 3 * E.power S

/-- The members with property `bad` hold at most a third of the weight. -/
def Minor (bad : ι → Prop) : Prop :=
  ∀ S ⊆ E.members, (∀ i ∈ S, bad i) → 3 * E.power S ≤ E.total

variable {E}

theorem power_nonneg (S : Finset ι) : 0 ≤ E.power S :=
  Finset.sum_nonneg fun i _ => E.weight_nonneg i

theorem power_mono {S T : Finset ι} (h : S ⊆ T) : E.power S ≤ E.power T :=
  Finset.sum_le_sum_of_subset_of_nonneg h fun i _ _ => E.weight_nonneg i

@[simp] theorem power_empty : E.power ∅ = 0 := Finset.sum_empty

theorem power_insert [DecidableEq ι] {i : ι} {S : Finset ι} (h : i ∉ S) :
    E.power (insert i S) = E.weight i + E.power S :=
  Finset.sum_insert h

theorem power_union_add_inter [DecidableEq ι] (S T : Finset ι) :
    E.power (S ∪ T) + E.power (S ∩ T) = E.power S + E.power T :=
  Finset.sum_union_inter

/-- Nobody is bad. -/
theorem minor_nobody : E.Minor fun _ => False := by
  intro S _ hS
  obtain rfl : S = ∅ := Finset.eq_empty_of_forall_notMem fun i hi => hS i hi
  rw [power_empty, mul_zero]
  exact E.power_nonneg E.members

namespace IsQuorum

variable {S : Finset ι}

/-- Two quorums overlap in strictly more than a third of the weight. -/
theorem inter_power [DecidableEq ι] {T : Finset ι} (hS : E.IsQuorum S) (hT : E.IsQuorum T) :
    E.total < 3 * E.power (S ∩ T) := by
  have hunion : E.power (S ∪ T) ≤ E.total :=
    power_mono (Finset.union_subset hS.subset hT.subset)
  have hsum := E.power_union_add_inter S T
  have h₁ := hS.two_thirds
  have h₂ := hT.two_thirds
  omega

/-- Two quorums share a member that is not `bad`. -/
theorem exists_common {T : Finset ι} (hS : E.IsQuorum S) (hT : E.IsQuorum T) {bad : ι → Prop}
    (hbad : E.Minor bad) : ∃ i ∈ S, i ∈ T ∧ ¬ bad i := by
  classical
  by_contra hnone
  push Not at hnone
  have hsub : S ∩ T ⊆ E.members := fun i hi => hS.subset (Finset.mem_inter.mp hi).1
  have hall : ∀ i ∈ S ∩ T, bad i := fun i hi =>
    hnone i (Finset.mem_inter.mp hi).1 (Finset.mem_inter.mp hi).2
  have hle := hbad (S ∩ T) hsub hall
  have hlt := hS.inter_power hT
  omega

/-- A quorum has a member that is not `bad`. -/
theorem exists_mem (hS : E.IsQuorum S) {bad : ι → Prop} (hbad : E.Minor bad) :
    ∃ i ∈ S, ¬ bad i := by
  obtain ⟨i, hi, -, hgood⟩ := hS.exists_common hS hbad
  exact ⟨i, hi, hgood⟩

end IsQuorum

end Electorate
