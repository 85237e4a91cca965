import Mathlib.Data.List.Count
import Mathlib.Data.List.Dedup
import Mathlib.Data.List.Nodup
import Mathlib.Data.List.Sort

/-!
# Sorting by buckets

A list is sorted by a key in that its keys are collected, each once, and sorted; then the
elements of the first key are listed, those of the second key, and so on.

- `perm_buckets`, `pairwise_buckets`: nothing is lost, and the keys ascend.
- `le_of_take_of_drop`, `lt_of_mem_take`: what goes first when the front of such a list is
  cut off.
- `countP_eq_iff`: two nested tests that count the same are the same.
-/

namespace BucketSort

variable {α κ : Type*} [LinearOrder κ] (key : α → κ) {l : List α} {a : α}

/-- The elements by ascending key, those of one key as they come. -/
def buckets (l : List α) : List α :=
  ((l.map key).dedup.insertionSort (· ≤ ·)).flatMap fun k => l.filter fun a => key a = k

variable {key}

theorem mem_keys {k : κ} :
    k ∈ (l.map key).dedup.insertionSort (· ≤ ·) ↔ ∃ a ∈ l, key a = k := by
  rw [List.mem_insertionSort, List.mem_dedup, List.mem_map]

/-- An element is in the bucket of its own key only. -/
theorem key_of_mem_bucket {k : κ} (h : a ∈ l.filter fun a => key a = k) :
    key a = k :=
  of_decide_eq_true (List.mem_filter.mp h).2

theorem mem_buckets : a ∈ buckets key l ↔ a ∈ l := by
  rw [buckets, List.mem_flatMap]
  constructor
  · rintro ⟨k, -, ha⟩
    exact List.mem_of_mem_filter ha
  · intro ha
    exact ⟨key a, mem_keys.mpr ⟨a, ha, rfl⟩, List.mem_filter.mpr ⟨ha, decide_eq_true rfl⟩⟩

theorem nodup_keys (l : List α) : ((l.map key).dedup.insertionSort (· ≤ ·)).Nodup :=
  (List.perm_insertionSort _ _).nodup_iff.mpr (List.nodup_dedup _)

theorem nodup_buckets (hl : l.Nodup) : (buckets key l).Nodup := by
  rw [buckets, List.nodup_flatMap]
  refine ⟨fun k _ => hl.filter _, (nodup_keys l).imp fun hne a ha hb => hne ?_⟩
  exact (key_of_mem_bucket ha).symm.trans (key_of_mem_bucket hb)

theorem perm_buckets (hl : l.Nodup) : (buckets key l).Perm l :=
  (List.perm_ext_iff_of_nodup (nodup_buckets hl) hl).mpr fun _ => mem_buckets

/-- The keys ascend. -/
theorem pairwise_buckets (l : List α) :
    (buckets key l).Pairwise fun a b => key a ≤ key b := by
  rw [buckets, List.pairwise_flatMap]
  constructor
  · intro k _
    refine List.pairwise_of_forall_mem_list fun a ha b hb => ?_
    exact ((key_of_mem_bucket ha).trans (key_of_mem_bucket hb).symm).le
  · refine (List.pairwise_insertionSort (· ≤ ·) _).imp fun hle a ha b hb => ?_
    rwa [key_of_mem_bucket ha, key_of_mem_bucket hb]

/-- What is cut off is not above what is left. -/
theorem le_of_take_of_drop (hl : l.Pairwise fun a b => key a ≤ key b) {n : Nat} {b : α}
    (ha : a ∈ l.take n) (hb : b ∈ l.drop n) : key a ≤ key b := by
  rw [← List.take_append_drop n l, List.pairwise_append] at hl
  exact hl.2.2 a ha b hb

/-- If there are `n` elements below a bound, the first `n` are below it. -/
theorem lt_of_mem_take (hl : l.Pairwise fun a b => key a ≤ key b) {n : Nat} {bound : κ}
    (hn : n ≤ l.countP fun a => key a < bound) (ha : a ∈ l.take n) :
    key a < bound := by
  by_contra hge
  -- nothing behind the first `n` is below the bound, and one of them is not either
  have hdrop : (l.drop n).countP (fun a => key a < bound) = 0 := by
    rw [List.countP_eq_zero]
    intro b hb hlt
    rw [decide_eq_true_eq] at hlt
    exact hge ((le_of_take_of_drop hl ha hb).trans_lt hlt)
  have htake : (l.take n).countP (fun a => key a < bound) < (l.take n).length := by
    rw [List.countP_lt_length_iff]
    exact ⟨a, ha, decide_eq_false hge⟩
  have hsplit : l.countP (fun a => key a < bound) =
      (l.take n).countP (fun a => key a < bound) + (l.drop n).countP fun a => key a < bound := by
    rw [← List.countP_append, List.take_append_drop]
  have hlen : (l.take n).length ≤ n := List.length_take_le n l
  omega

/-- Two nested tests that count the same are the same. -/
theorem countP_eq_iff {p q : α → Bool} (h : ∀ a ∈ l, p a = true → q a = true) :
    l.countP q = l.countP p ↔ ∀ a ∈ l, q a = true → p a = true := by
  constructor
  · intro hcount
    induction l with
    | nil => simp
    | cons b l ih =>
      obtain ⟨hb, hl⟩ := List.forall_mem_cons.mp h
      have hle := List.countP_mono_left hl
      rw [List.countP_cons, List.countP_cons] at hcount
      rw [List.forall_mem_cons]
      cases hpb : p b with
      | true =>
        rw [hpb, hb hpb] at hcount
        exact ⟨fun _ => rfl, ih hl (by simpa using hcount)⟩
      | false =>
        cases hqb : q b with
        | true =>
          rw [hpb, hqb, if_pos rfl, if_neg Bool.false_ne_true] at hcount
          omega
        | false =>
          rw [hpb, hqb] at hcount
          exact ⟨fun hq => absurd hq Bool.false_ne_true, ih hl (by simpa using hcount)⟩
  · intro hqp
    refine List.countP_congr fun a ha => ?_
    exact ⟨hqp a ha, h a ha⟩

end BucketSort
