import Leaderberry.Lib.BucketSort
import Leaderberry.Evidence.Detection

/-!
# Pruning the votes

When the table of votes is full, `pruneOldestVotes` groups the votes below the protection
window by height, sorts the heights and deletes until enough are gone. Go walks over the table
in any order.

- `oldestFirst_eq`: the groups in ascending order are the bucket sort of the votes by height.
- `prunesBelow_iff`: which bounds the deletion respects. The code uses `protectedHeight`; for
  a lower bound there must be enough votes below it, or none between the two.
- `prunes_oldest_iff`: so the deletion is what the window promises, except near the least
  `int64`, where the lower end of the window wraps around.
- `size_run`: whatever happens, the table does not grow beyond `MaxSeenVotes`.
-/

namespace Leaderberry.Byzantine

/-! ## Deleting from a table -/

/-- Deleting distinct keys that are there. -/
theorem length_foldl_erase {K V : Type} [DecidableEq K] {keys : List K} (hnodup : keys.Nodup) :
    ∀ {m : GoMap K V}, (∀ k ∈ keys, k ∈ m) →
      (keys.foldl (fun m key => m.erase key) m).entries.length + keys.length =
        m.entries.length := by
  induction keys with
  | nil => exact fun _ => rfl
  | cons key keys ih =>
    intro m hkeys
    obtain ⟨hkey, hrest⟩ := List.forall_mem_cons.mp hkeys
    obtain ⟨hnew, hnodup⟩ := List.nodup_cons.mp hnodup
    have hstill : ∀ k ∈ keys, k ∈ m.erase key := fun k hk =>
      AList.mem_erase.mpr ⟨fun heq => hnew (heq ▸ hk), hrest k hk⟩
    have hone : (m.erase key).entries.length + 1 = m.entries.length := by
      have hlen := congrArg List.length (AList.keys_erase key m)
      rw [List.length_erase_of_mem (AList.mem_keys.mp hkey)] at hlen
      have hpos := List.length_pos_of_mem (AList.mem_keys.mp hkey)
      have hkeys (m : GoMap K V) : m.keys.length = m.entries.length := List.length_map _
      rw [hkeys, hkeys] at hlen
      rw [hkeys] at hpos
      omega
    have hrec := ih hnodup hstill
    rw [List.foldl_cons, List.length_cons]
    omega

namespace Pool

variable {key : GoString} {bound : Int} {n : Nat} {v : Vote}

/-! ## The order of deletion -/

/-- The number of votes below a height. -/
def votesBelow (p : Pool) (height : Int) : Nat :=
  p.seenVotes.entries.countP fun e => e.2.height < height

/-- The votes that may be deleted, oldest first. -/
def oldest (order : List GoString) (p : Pool) : List (Int × GoString) :=
  BucketSort.buckets Prod.fst (p.unprotected order)

theorem oldestFirst_eq (order : List GoString) (p : Pool) :
    p.oldestFirst order = (p.oldest order).map Prod.snd := by
  rw [oldest, BucketSort.buckets, List.map_flatMap]
  rfl

variable {p : Pool} {order : List GoString}

theorem mem_unprotected {height : Int} :
    (height, key) ∈ p.unprotected order ↔ key ∈ order ∧
      ∃ v ∈ p.seenVotes.lookup key, v.height = height ∧ height < p.protectedHeight := by
  rw [unprotected, List.mem_filterMap]
  constructor
  · rintro ⟨k, hk, hbind⟩
    obtain ⟨v, hv, hif⟩ := Option.bind_eq_some_iff.mp hbind
    split_ifs at hif with hprotected
    cases hif
    exact ⟨hk, v, hv, rfl, lt_of_not_ge hprotected⟩
  · rintro ⟨hk, v, hv, rfl, hlt⟩
    refine ⟨key, hk, Option.bind_eq_some_iff.mpr ⟨v, hv, ?_⟩⟩
    rw [if_neg (not_le.mpr hlt)]

/-- What may be deleted is a vote of the table, below the code's bound. -/
theorem of_mem_oldest {x : Int × GoString} (h : x ∈ p.oldest order) :
    ∃ v ∈ p.seenVotes.lookup x.2, v.height = x.1 ∧ x.1 < p.protectedHeight :=
  (mem_unprotected.mp (BucketSort.mem_buckets.mp h)).2

theorem nodup_unprotected (horder : order.Nodup) : (p.unprotected order).Nodup := by
  refine horder.filterMap fun k k' b hb hb' => ?_
  obtain ⟨v, -, hif⟩ := Option.bind_eq_some_iff.mp hb
  obtain ⟨v', -, hif'⟩ := Option.bind_eq_some_iff.mp hb'
  split_ifs at hif hif'
  exact (Prod.mk.inj (Option.some.inj (hif.trans hif'.symm))).2

/-- When Go walks over the whole table, no vote is overlooked. -/
theorem countP_unprotected (horder : order.Perm p.seenVotes.keys)
    (hbound : bound ≤ p.protectedHeight) :
    (p.unprotected order).countP (fun v => v.1 < bound) = p.votesBelow bound := by
  rw [unprotected, List.countP_filterMap, horder.countP_eq, votesBelow]
  show (p.seenVotes.entries.map Sigma.fst).countP _ = _
  rw [List.countP_map]
  refine List.countP_congr fun e he => ?_
  have hlookup : p.seenVotes.lookup e.1 = some e.2 := AList.mem_lookup_iff.mpr he
  simp only [Function.comp_apply, hlookup, Option.bind_some]
  split_ifs with hprotected
  · simp only [Option.map_none, Option.getD_none, Bool.false_eq_true, decide_eq_true_eq, false_iff]
    omega
  · rfl

theorem perm_oldest (horder : order.Perm p.seenVotes.keys) :
    (p.oldest order).Perm (p.unprotected order) :=
  BucketSort.perm_buckets (nodup_unprotected (horder.nodup_iff.mpr p.seenVotes.keys_nodup))

theorem pairwise_oldest (order : List GoString) (p : Pool) :
    (p.oldest order).Pairwise fun a b => a.1 ≤ b.1 :=
  BucketSort.pairwise_buckets _

theorem countP_oldest (horder : order.Perm p.seenVotes.keys) (hbound : bound ≤ p.protectedHeight) :
    (p.oldest order).countP (fun v => v.1 < bound) = p.votesBelow bound := by
  rw [(perm_oldest horder).countP_eq, countP_unprotected horder hbound]

theorem length_oldest (horder : order.Perm p.seenVotes.keys) :
    (p.oldest order).length = p.votesBelow p.protectedHeight := by
  rw [← countP_oldest horder le_rfl, eq_comm, List.countP_eq_length]
  intro x hx
  obtain ⟨v, -, -, hlt⟩ := of_mem_oldest hx
  exact decide_eq_true hlt

/-! ## What is deleted -/

theorem pruneOldestVotes_eq (n : Nat) : (p.pruneOldestVotes order n).seenVotes =
    (((p.oldest order).take n).map Prod.snd).foldl (fun votes key => votes.erase key)
      p.seenVotes := by
  unfold pruneOldestVotes
  dsimp only
  rw [oldestFirst_eq, List.map_take]

theorem mem_deleted (hv : v ∈ p.seenVotes.lookup key) :
    key ∈ ((p.oldest order).take n).map Prod.snd ↔ (v.height, key) ∈ (p.oldest order).take n := by
  constructor
  · intro hmem
    obtain ⟨⟨height, k⟩, hpair, rfl⟩ := List.mem_map.mp hmem
    obtain ⟨w, hw, rfl, -⟩ := of_mem_oldest (List.mem_of_mem_take hpair)
    rwa [Option.mem_unique hv hw]
  · exact fun hpair => List.mem_map_of_mem hpair

/-- A vote is still there exactly if it is not among the first `n`. -/
theorem mem_lookup_prune_iff (hv : v ∈ p.seenVotes.lookup key) :
    v ∈ (p.pruneOldestVotes order n).seenVotes.lookup key ↔
      (v.height, key) ∉ (p.oldest order).take n := by
  rw [pruneOldestVotes_eq, mem_lookup_foldl_erase, mem_deleted hv, and_iff_right hv]

theorem notMem_take_of_bound (hle : bound ≤ v.height)
    (hfirst : ∀ w ∈ (p.oldest order).take n, w.1 < bound) :
    (v.height, key) ∉ (p.oldest order).take n :=
  fun hmem => absurd (hfirst _ hmem) (not_lt.mpr hle)

/-- The number of votes that are deleted. -/
theorem length_pruneOldestVotes (horder : order.Perm p.seenVotes.keys) (n : Nat) :
    (p.pruneOldestVotes order n).seenVotes.entries.length +
      min n (p.votesBelow p.protectedHeight) = p.seenVotes.entries.length := by
  have hnodup : (((p.oldest order).take n).map Prod.snd).Nodup := by
    refine List.Nodup.map_on ?_ ((BucketSort.nodup_buckets (nodup_unprotected
      (horder.nodup_iff.mpr p.seenVotes.keys_nodup))).sublist (List.take_sublist n _))
    rintro ⟨h, k⟩ hx ⟨h', k'⟩ hy rfl
    -- a key has one vote, and so one height
    obtain ⟨v, hv, rfl, -⟩ := of_mem_oldest (List.mem_of_mem_take hx)
    obtain ⟨v', hv', rfl, -⟩ := of_mem_oldest (List.mem_of_mem_take hy)
    rw [Option.mem_unique hv hv']
  have hthere : ∀ k ∈ ((p.oldest order).take n).map Prod.snd, k ∈ p.seenVotes := by
    intro k hk
    obtain ⟨x, hx, rfl⟩ := List.mem_map.mp hk
    obtain ⟨v, hv, -⟩ := of_mem_oldest (List.mem_of_mem_take hx)
    exact AList.lookup_isSome.mp (Option.isSome_of_mem hv)
  have hlen := length_foldl_erase hnodup hthere
  rw [List.length_map, List.length_take, length_oldest horder] at hlen
  rw [pruneOldestVotes_eq]
  exact hlen

/-! ## Which bounds are respected -/

/-- The first `n` votes below a bound are deleted, in the order of their heights, and nothing
else. -/
structure PrunesBelow (bound : Int) (order : List GoString) (n : Nat) (p : Pool) : Prop where
  count : (p.pruneOldestVotes order n).seenVotes.entries.length + min n (p.votesBelow bound) =
    p.seenVotes.entries.length
  old : ∀ key, ∀ v ∈ (p.pruneOldestVotes order n).seenVotes.lookup key,
    v ∈ p.seenVotes.lookup key
  kept : ∀ key, ∀ v ∈ p.seenVotes.lookup key, bound ≤ v.height →
    v ∈ (p.pruneOldestVotes order n).seenVotes.lookup key
  oldest : ∀ key, ∀ v ∈ p.seenVotes.lookup key,
    (p.pruneOldestVotes order n).seenVotes.lookup key = none →
    ∀ key', ∀ w ∈ (p.pruneOldestVotes order n).seenVotes.lookup key', w.height < bound →
      v.height ≤ w.height

/-- What is deleted is not above what is left of the votes that may be deleted. -/
theorem deleted_le_left (horder : order.Perm p.seenVotes.keys) {key' : GoString} {w : Vote}
    (hv : v ∈ p.seenVotes.lookup key)
    (hdeleted : (p.pruneOldestVotes order n).seenVotes.lookup key = none)
    (hw : w ∈ (p.pruneOldestVotes order n).seenVotes.lookup key')
    (hlt : w.height < p.protectedHeight) : v.height ≤ w.height := by
  have hfirst : (v.height, key) ∈ (p.oldest order).take n := by
    by_contra hnot
    have hstill := (mem_lookup_prune_iff hv).mpr hnot
    rw [hdeleted] at hstill
    cases hstill
  have hold := of_mem_lookup_pruneOldestVotes hw
  have hlater : (w.height, key') ∈ (p.oldest order).drop n := by
    have hkey : key' ∈ order := horder.mem_iff.mpr
      (AList.mem_keys.mp (AList.lookup_isSome.mp (Option.isSome_of_mem hold)))
    have hmem : (w.height, key') ∈ p.oldest order :=
      BucketSort.mem_buckets.mpr (mem_unprotected.mpr ⟨hkey, w, hold, rfl, hlt⟩)
    rw [← List.take_append_drop n (p.oldest order), List.mem_append] at hmem
    exact hmem.resolve_left ((mem_lookup_prune_iff hold).mp hw)
  show (v.height, key).1 ≤ (w.height, key').1
  exact BucketSort.le_of_take_of_drop (pairwise_oldest order p) hfirst hlater

theorem votesBelow_mono {a b : Int} (hab : a ≤ b) : p.votesBelow a ≤ p.votesBelow b := by
  refine List.countP_mono_left fun e _ hlt => ?_
  rw [decide_eq_true_eq] at hlt ⊢
  exact hlt.trans_le hab

/-- Two bounds have the same votes below them exactly if no vote is between them. -/
theorem votesBelow_eq_iff {a b : Int} (hab : a ≤ b) : p.votesBelow b = p.votesBelow a ↔
    ∀ key, ∀ v ∈ p.seenVotes.lookup key, v.height < b → v.height < a := by
  unfold votesBelow
  rw [BucketSort.countP_eq_iff fun e _ hlt => ?_]
  · constructor
    · intro h key v hv hlt
      have hmem : (⟨key, v⟩ : (_ : GoString) × Vote) ∈ p.seenVotes.entries :=
        AList.mem_lookup_iff.mp hv
      simpa using h _ hmem (decide_eq_true hlt)
    · rintro h ⟨key, v⟩ he hlt
      rw [decide_eq_true_eq] at hlt ⊢
      exact h key v (AList.mem_lookup_iff.mpr he) hlt
  · rw [decide_eq_true_eq] at hlt ⊢
    exact hlt.trans_le hab

/-- The bounds up to the code's own that the deletion respects: there are enough votes below
it, or none between the two. -/
theorem prunesBelow_iff (horder : order.Perm p.seenVotes.keys) (hbound : bound ≤ p.protectedHeight)
    (n : Nat) : PrunesBelow bound order n p ↔
      n ≤ p.votesBelow bound ∨ ∀ key, ∀ v ∈ p.seenVotes.lookup key,
        v.height < p.protectedHeight → v.height < bound := by
  have hmono := votesBelow_mono (p := p) hbound
  have hlength := length_pruneOldestVotes horder n
  rw [← votesBelow_eq_iff hbound]
  constructor
  · intro h
    have hcount := h.count
    omega
  intro hor
  -- in both cases the first `n` votes are below the bound
  have hfirst : ∀ w ∈ (p.oldest order).take n, w.1 < bound := by
    intro w hw
    rcases hor with hn | heq
    · exact BucketSort.lt_of_mem_take (pairwise_oldest order p)
        (hn.trans (countP_oldest horder hbound).ge) hw
    · obtain ⟨v, hv, hheight, hlt⟩ := of_mem_oldest (List.mem_of_mem_take hw)
      rw [← hheight] at hlt ⊢
      exact (votesBelow_eq_iff hbound).mp heq _ v hv hlt
  refine ⟨by omega, fun _ _ => of_mem_lookup_pruneOldestVotes, fun key v hv hle => ?_,
    fun key v hv hdeleted key' w hw hlt =>
      deleted_le_left horder hv hdeleted hw (hlt.trans_le hbound)⟩
  exact (mem_lookup_prune_iff hv).mpr (notMem_take_of_bound hle hfirst)

/-! ## The window -/

/-- The lower end of the protection window. -/
def windowStart (p : Pool) : Int := max 0 (p.currentHeight - voteProtectionWindow)

theorem protectedHeight_eq (hlow : minInt64 + voteProtectionWindow ≤ p.currentHeight)
    (hhigh : p.currentHeight ≤ maxInt64) : p.protectedHeight = p.windowStart := by
  have hwrap : wrapInt64 (p.currentHeight - voteProtectionWindow) =
      p.currentHeight - voteProtectionWindow := by
    simp only [minInt64, voteProtectionWindow, maxInt64] at hlow hhigh
    refine wrapInt64_eq_self ?_ ?_
    · simp only [minInt64, voteProtectionWindow]
      omega
    · simp only [maxInt64, voteProtectionWindow]
      omega
  unfold protectedHeight windowStart
  rw [hwrap]
  dsimp only
  split
  · rw [max_eq_left (by omega)]
  · rw [max_eq_right (by omega)]

/-- Near the least `int64` the subtraction wraps around. -/
theorem protectedHeight_wrapped (hlow : minInt64 ≤ p.currentHeight)
    (hhigh : p.currentHeight < minInt64 + voteProtectionWindow) :
    p.windowStart = 0 ∧
      p.protectedHeight = p.currentHeight - voteProtectionWindow + 2 ^ 64 := by
  simp only [minInt64, voteProtectionWindow] at hlow hhigh
  have hwrap : wrapInt64 (p.currentHeight - 1000) = p.currentHeight - 1000 + 2 ^ 64 := by
    rw [wrapInt64, ← Int.add_bmod_right]
    exact Int.bmod_eq_of_le (by norm_num; omega) (by norm_num; omega)
  unfold protectedHeight windowStart voteProtectionWindow
  rw [hwrap]
  dsimp only
  exact ⟨max_eq_left (by omega), if_neg (by omega)⟩

/-- What the window promises. -/
def PrunesOldest (order : List GoString) (n : Nat) (p : Pool) : Prop :=
  PrunesBelow p.windowStart order n p

/-- The deletion is what the window promises, unless its lower end wraps around and a vote
that is deleted lies behind it. -/
theorem prunesOldest_iff (hlow : minInt64 ≤ p.currentHeight) (hhigh : p.currentHeight ≤ maxInt64)
    (horder : order.Perm p.seenVotes.keys) (n : Nat) : PrunesOldest order n p ↔
      minInt64 + voteProtectionWindow ≤ p.currentHeight ∨ n ≤ p.votesBelow 0 ∨
        ∀ key, ∀ v ∈ p.seenVotes.lookup key, 0 ≤ v.height →
          p.currentHeight - voteProtectionWindow + 2 ^ 64 ≤ v.height := by
  unfold PrunesOldest
  by_cases hwindow : minInt64 + voteProtectionWindow ≤ p.currentHeight
  · -- no wrap: the code's bound is the window's
    have heq := protectedHeight_eq hwindow hhigh
    rw [prunesBelow_iff horder heq.ge, heq]
    exact iff_of_true (.inr fun _ _ _ => id) (.inl hwindow)
  · obtain ⟨hstart, hwrapped⟩ := protectedHeight_wrapped hlow (not_le.mp hwindow)
    have hle : p.windowStart ≤ p.protectedHeight := by
      rw [hstart, hwrapped]
      simp only [minInt64, voteProtectionWindow] at hlow ⊢
      omega
    rw [prunesBelow_iff horder hle, hstart, hwrapped, or_iff_right hwindow]
    refine or_congr_right (forall_congr' fun key => forall₂_congr fun v _ => ?_)
    constructor
    · intro h hv
      by_contra hlt
      exact absurd (h (not_le.mp hlt)) (not_lt.mpr hv)
    · intro h hlt
      by_contra hge
      exact absurd (h (not_lt.mp hge)) (not_le.mpr hlt)

/-! ## The size of the table -/

theorem length_pruneOldestVotes_le (order : List GoString) (n : Nat) (p : Pool) :
    (p.pruneOldestVotes order n).seenVotes.entries.length ≤ p.seenVotes.entries.length := by
  have hfold : ∀ (keys : List GoString) (m : GoMap GoString Vote),
      (keys.foldl (fun votes key => votes.erase key) m).entries.length ≤ m.entries.length := by
    intro keys
    induction keys with
    | nil => exact fun _ => le_rfl
    | cons key keys ih =>
      intro m
      exact (ih (m.erase key)).trans (List.kerase_sublist key m.entries).length_le
  exact hfold _ _

/-- A vote is only stored when there is room. -/
theorem size_trackVote (order : List GoString) (vote : Vote)
    (h : p.seenVotes.entries.length ≤ maxSeenVotes) :
    (p.trackVote order vote).2.seenVotes.entries.length ≤ maxSeenVotes := by
  have hinsert (m : GoMap GoString Vote) (hm : ¬ maxSeenVotes ≤ m.entries.length) :
      (m.insert (voteKey vote) vote).entries.length ≤ maxSeenVotes := by
    rw [AList.entries_insert, List.length_cons]
    have herase := (List.kerase_sublist (voteKey vote) m.entries).length_le
    omega
  unfold trackVote
  dsimp only
  split
  · rename_i hfull
    split
    · exact (length_pruneOldestVotes_le order _ p).trans h
    · rename_i hroom
      exact hinsert _ hroom
  · rename_i hroom
    exact hinsert _ hroom

section

variable [Externals] [Encoder]

theorem size_step (p : Pool) (op : PoolOp) (h : p.seenVotes.entries.length ≤ maxSeenVotes) :
    (p.step op).seenVotes.entries.length ≤ maxSeenVotes := by
  cases op with
  | checkVote now order vote valSet chainID =>
    show (p.checkVote now order vote valSet chainID).2.seenVotes.entries.length ≤ _
    obtain ⟨e, hcall⟩ | ⟨v, vs, val, -, -, -, -, ⟨-, hcall⟩ |
        ⟨existing, -, ⟨-, hcall⟩ | ⟨-, -, hcall⟩⟩⟩ :=
      p.checkVote_cases now order vote valSet chainID
    · rwa [hcall]
    · rw [hcall]
      exact size_trackVote order v h
    · rwa [hcall]
    · rwa [hcall]
  | addEvidence ev =>
    rwa [seenVotes_step p (by rintro _ _ _ _ _ ⟨⟩) rfl]
  | addDuplicateVoteEvidence dve chainID valSet =>
    rwa [seenVotes_step p (by rintro _ _ _ _ _ ⟨⟩) rfl]
  | markCommitted evidence => exact h
  | pendingEvidence maxBytes => exact h
  | update height blockTime => exact (List.length_filter_le _ _).trans h

theorem size_run (config : Config) (ops : List PoolOp) :
    ((newPool config).run ops).seenVotes.entries.length ≤ maxSeenVotes := by
  induction ops using List.reverseRecOn with
  | nil => exact Nat.zero_le _
  | append_singleton ops op ih =>
    rw [run_concat]
    exact size_step _ op ih

/-- **Pruning the votes.** The first `n` votes below the window are deleted, oldest first, and
nothing else, exactly if the lower end of the window does not wrap around, or `n` votes have
a negative height anyway, or no other vote is below the wrapped end. And in every run the
table has at most `MaxSeenVotes` votes. -/
theorem prunes_oldest_iff :
    (∀ (p : Pool) (order : List GoString) (n : Nat),
      minInt64 ≤ p.currentHeight → p.currentHeight ≤ maxInt64 →
      order.Perm p.seenVotes.keys →
      (PrunesOldest order n p ↔
        minInt64 + voteProtectionWindow ≤ p.currentHeight ∨ n ≤ p.votesBelow 0 ∨
          ∀ key, ∀ v ∈ p.seenVotes.lookup key, 0 ≤ v.height →
            p.currentHeight - voteProtectionWindow + 2 ^ 64 ≤ v.height)) ∧
    ∀ (config : Config) (ops : List PoolOp),
      ((newPool config).run ops).seenVotes.entries.length ≤ maxSeenVotes :=
  ⟨fun _ _ n hlow hhigh horder => prunesOldest_iff hlow hhigh horder n, size_run⟩

end

end Pool

/-! ## A protected vote that is deleted -/

namespace Wrapped

attribute [local instance] transparent timeEncoder

open Scenario (ballot)

/-- At the least height the window starts at 0, and still `pruneOldestVotes` deletes the vote
of height 0 that the pool has just taken. -/
theorem wrapped_window_prunes_vote :
    first.currentHeight = minInt64 ∧ [voteKey lost].Perm first.seenVotes.keys ∧
      lost ∈ first.seenVotes.lookup (voteKey lost) ∧ first.windowStart ≤ lost.height ∧
      (first.pruneOldestVotes [voteKey lost] 1).seenVotes.lookup (voteKey lost) = none ∧
      ¬ Pool.PrunesOldest [voteKey lost] 1 first := by
  have hkeys : first.seenVotes.keys = [voteKey lost] := by decide +kernel
  have hlost : lost ∈ first.seenVotes.lookup (voteKey lost) := filled_first.first
  have hstart : first.windowStart ≤ lost.height := by decide +kernel
  have hpruned : (first.pruneOldestVotes [voteKey lost] 1).seenVotes.lookup (voteKey lost) =
      none := by decide +kernel
  refine ⟨filled_first.height, hkeys ▸ .refl _, hlost, hstart, hpruned, fun hprunes => ?_⟩
  have hkept := hprunes.kept _ lost hlost hstart
  rw [hpruned] at hkept
  cases hkept

/-- A pool at height 2000 with the votes of heights 0 and 1: both are below the window, and the
older one goes. -/
theorem prunes_oldest_two :
    let p := (newPool defaultConfig).run
      [.checkVote 0 [] (some (ballot 1 0 none)) (some sole) [7],
        .checkVote 0 [] (some lost) (some sole) [7], .update 2000 0]
    p.seenVotes.entries.length = 2 ∧ Pool.PrunesOldest p.seenVotes.keys 1 p := by
  intro p
  have hheight : p.currentHeight = 2000 := rfl
  refine ⟨by decide +kernel, (Pool.prunes_oldest_iff.1 p p.seenVotes.keys 1 ?_ ?_ (.refl _)).mpr
    (.inl ?_)⟩
  · rw [hheight]
    decide
  · rw [hheight]
    decide
  · rw [hheight]
    decide

end Wrapped

end Leaderberry.Byzantine
