import Mathlib.Algebra.Order.BigOperators.Ring.Finset
import Mathlib.Tactic.Linarith
import Leaderberry.Lib.Quorum

/-!
# Weighted round robin

Members with integer weights have balances. In each turn everybody earns their weight,
and a member with the greatest balance pays the total weight. The balances stay bounded
(`Solvent`), so in any number of turns everybody pays in proportion to their weight, up
to a constant (`Turns.paid_le`, `Turns.earned_le`).
-/

namespace Electorate

variable {ι : Type*} [DecidableEq ι] (E : Electorate ι) {p : ι → ℤ} {j : ι}

/-- Everybody earns their weight, and `j` pays the total. -/
def charge (p : ι → ℤ) (j : ι) : ι → ℤ :=
  fun i => p i + E.weight i - if i = j then E.total else 0

/-- `j` is a member with the greatest balance once everybody has earned. -/
structure Picks (p : ι → ℤ) (j : ι) : Prop where
  mem : j ∈ E.members
  max : ∀ i ∈ E.members, p i + E.weight i ≤ p j + E.weight j

/-- The balances are not in debt together, and no member owes the total. -/
structure Solvent (p : ι → ℤ) : Prop where
  sum_nonneg : 0 ≤ ∑ i ∈ E.members, p i
  bound : ∀ i ∈ E.members, -E.total < p i

/-- Turns from `p₀` to `p` in which the members of the list paid. -/
inductive Turns (p₀ : ι → ℤ) : List ι → (ι → ℤ) → Prop
  | start : Turns p₀ [] p₀
  | next {l : List ι} {p : ι → ℤ} {j : ι} : Turns p₀ l p → E.Picks p j →
      Turns p₀ (l ++ [j]) (E.charge p j)

variable {E}

theorem sum_charge (hj : j ∈ E.members) :
    ∑ i ∈ E.members, E.charge p j i = ∑ i ∈ E.members, p i := by
  have hpaid : ∑ i ∈ E.members, (if i = j then E.total else 0) = E.total := by
    rw [Finset.sum_ite_eq', if_pos hj]
  unfold charge
  rw [Finset.sum_sub_distrib, Finset.sum_add_distrib, hpaid, total, power]
  exact add_sub_cancel_right _ _

omit [DecidableEq ι] in
/-- Who pays has something: the balances are positive together after everybody earned. -/
theorem Picks.pos (h : E.Picks p j) (hp : E.Solvent p) (htotal : 0 < E.total) :
    0 < p j + E.weight j := by
  by_contra hle
  have hall : ∑ i ∈ E.members, (p i + E.weight i) ≤ 0 :=
    Finset.sum_nonpos fun i hi => (h.max i hi).trans (not_lt.mp hle)
  rw [Finset.sum_add_distrib] at hall
  have hsum := hp.sum_nonneg
  have heq : ∑ i ∈ E.members, E.weight i = E.total := rfl
  omega

theorem Solvent.charge (h : E.Solvent p) (htotal : 0 < E.total) (hpick : E.Picks p j) :
    E.Solvent (E.charge p j) where
  sum_nonneg := by
    rw [sum_charge hpick.mem]
    exact h.sum_nonneg
  bound := fun i hi => by
    unfold Electorate.charge
    split
    · rename_i heq
      subst heq
      have := hpick.pos h htotal
      omega
    · have := h.bound i hi
      have := E.weight_nonneg i
      omega

/-- No balance exceeds what all others together can owe. -/
theorem Solvent.le (h : E.Solvent p) {i : ι} (hi : i ∈ E.members) :
    p i ≤ ∑ k ∈ E.members, p k + (E.members.card - 1) * (E.total - 1) := by
  have hothers : ∑ k ∈ E.members.erase i, (1 - E.total) ≤ ∑ k ∈ E.members.erase i, p k := by
    refine Finset.sum_le_sum fun k hk => ?_
    have := h.bound k (Finset.mem_of_mem_erase hk)
    omega
  rw [Finset.sum_const, Finset.card_erase_of_mem hi, nsmul_eq_mul,
    Nat.cast_sub (Finset.card_pos.mpr ⟨i, hi⟩), Nat.cast_one] at hothers
  have hsplit := Finset.add_sum_erase E.members p hi
  linarith

namespace Turns

variable {p₀ p : ι → ℤ} {l : List ι}

theorem sum_eq (h : E.Turns p₀ l p) : ∑ i ∈ E.members, p i = ∑ i ∈ E.members, p₀ i := by
  induction h with
  | start => rfl
  | next _ hpick ih => rw [sum_charge hpick.mem, ih]

theorem solvent (h : E.Turns p₀ l p) (htotal : 0 < E.total) (h₀ : E.Solvent p₀) :
    E.Solvent p := by
  induction h with
  | start => exact h₀
  | next _ hpick ih => exact ih.charge htotal hpick

/-- What a member has: what it started with and earned, less what it paid. -/
theorem balance (h : E.Turns p₀ l p) (i : ι) :
    p i = p₀ i + l.length * E.weight i - l.count i * E.total := by
  induction h with
  | start => simp
  | @next l p j _ _ ih =>
    unfold charge
    rw [ih, List.length_append, List.count_append, List.count_singleton]
    split
    · rename_i heq
      subst heq
      simp
      ring
    · rename_i hne
      rw [if_neg (by simpa using Ne.symm hne)]
      simp
      ring

/-- Nobody pays much more than they earn. -/
theorem paid_le (h : E.Turns p₀ l p) (htotal : 0 < E.total) (h₀ : E.Solvent p₀) {i : ι}
    (hi : i ∈ E.members) : l.count i * E.total - l.length * E.weight i < p₀ i + E.total := by
  have hbalance := h.balance i
  have hbound := (h.solvent htotal h₀).bound i hi
  omega

/-- Nobody earns much more than they pay. -/
theorem earned_le (h : E.Turns p₀ l p) (htotal : 0 < E.total) (h₀ : E.Solvent p₀) {i : ι}
    (hi : i ∈ E.members) : l.length * E.weight i - l.count i * E.total ≤
      ∑ k ∈ E.members, p₀ k + (E.members.card - 1) * (E.total - 1) - p₀ i := by
  have hbalance := h.balance i
  have hle := (h.solvent htotal h₀).le hi
  rw [h.sum_eq] at hle
  omega

end Turns

end Electorate
