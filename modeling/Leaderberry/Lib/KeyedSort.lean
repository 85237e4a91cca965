import Mathlib.Data.List.AList
import Mathlib.Data.List.Sort

/-!
# Sorting what a map holds

An association map is read in no particular order, and then sorted by a key. When no two
elements share the key, the result depends on neither the order in which the map was read
nor the order in which it was filled.

- `AList.perm_of_lookup_eq`: maps with the same lookups have the same entries.
- `KeyedSort.pairwise_lt`: sorting by distinct keys is strict.
- `KeyedSort.eq_of_perm`, `KeyedSort.eq_of_mem_iff`: there is only one strict order.
- `KeyedSort.insertionSort_congr`: so the sort forgets the order it starts from.
-/

/-- Maps with the same lookups list the same entries. -/
theorem AList.perm_of_lookup_eq {α : Type*} {β : α → Type*} [DecidableEq α] {m m' : AList β}
    (h : ∀ a, m.lookup a = m'.lookup a) : m.entries.Perm m'.entries := by
  refine List.lookup_ext m.nodupKeys m'.nodupKeys fun a b => ?_
  show b ∈ m.lookup a ↔ b ∈ m'.lookup a
  rw [h a]

namespace KeyedSort

variable {α K : Type*} [LinearOrder K] {key : α → K} {l l' : List α}

/-- Lists in strict order with the same elements are the same list. -/
theorem eq_of_perm (h : l.Pairwise fun a b => key a < key b)
    (h' : l'.Pairwise fun a b => key a < key b) (hperm : l.Perm l') : l = l' := by
  refine List.Perm.eq_of_pairwise (fun a b _ _ hab hba => ?_) h h' hperm
  exact absurd hba hab.asymm

/-- Lists in strict order with the same members are the same list. -/
theorem eq_of_mem_iff (h : l.Pairwise fun a b => key a < key b)
    (h' : l'.Pairwise fun a b => key a < key b) (hmem : ∀ a, a ∈ l ↔ a ∈ l') : l = l' := by
  have hnodup : ∀ {l : List α}, (l.Pairwise fun a b => key a < key b) → l.Nodup := by
    intro l h
    refine List.Pairwise.imp ?_ h
    rintro a b hab rfl
    exact lt_irrefl _ hab
  exact eq_of_perm h h' ((List.perm_ext_iff_of_nodup (hnodup h) (hnodup h')).mpr hmem)

variable [DecidableRel fun a b : α => key a ≤ key b]

/-- Sorting by keys that are all different is strict. -/
theorem pairwise_lt (hnodup : (l.map key).Nodup) :
    (l.insertionSort fun a b => key a ≤ key b).Pairwise fun a b => key a < key b := by
  have : Std.Total fun a b : α => key a ≤ key b := ⟨fun a b => le_total (key a) (key b)⟩
  have : IsTrans α fun a b => key a ≤ key b := ⟨fun _ _ _ hab hbc => le_trans hab hbc⟩
  have hle := List.pairwise_insertionSort (fun a b => key a ≤ key b) l
  have hne : (l.insertionSort fun a b => key a ≤ key b).Pairwise fun a b => key a ≠ key b := by
    have hsorted := ((List.perm_insertionSort (fun a b => key a ≤ key b) l).map key).nodup_iff.mpr
      hnodup
    exact List.pairwise_map.mp hsorted
  refine (hle.and hne).imp fun hab => ?_
  exact lt_of_le_of_ne hab.1 hab.2

/-- The sort does not see in which order its input comes. -/
theorem insertionSort_congr (hperm : l.Perm l') (hnodup : (l.map key).Nodup) :
    (l.insertionSort fun a b => key a ≤ key b) = l'.insertionSort fun a b => key a ≤ key b := by
  refine eq_of_perm (pairwise_lt hnodup) (pairwise_lt ?_) ?_
  · exact (hperm.map key).nodup_iff.mp hnodup
  · exact (List.perm_insertionSort _ l).trans (hperm.trans (List.perm_insertionSort _ l').symm)

end KeyedSort
