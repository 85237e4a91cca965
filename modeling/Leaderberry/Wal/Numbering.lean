import Mathlib.Order.Bounds.Basic
import Leaderberry.Wal.Lookup

/-!
# Segment numbers and file names

`segmentPath` writes a number with at least five digits, and the three scans of the
directory read at most five. Below 100000 that is the same number. From there on a file
name is read as a smaller one (`Dir.scanned_lt`), and the scans miss the segment.

A run opens segments one after the other and deletes them from below (`step_cases`). So as
long as all numbers are below 100000 the current segment has the highest one, and `Start`
finds it (`scans_iff`).
-/

namespace Leaderberry.Wal

variable {M : Type} [WalCodec M]

/-! ## Directories -/

namespace Dir

variable {i : Nat}

omit [WalCodec M] in
/-- No more than five digits are read. -/
theorem scanned_lt (i : Nat) : scanned i < 100000 := by
  rcases Nat.lt_or_ge i 100000 with hlt | hge
  · rw [scanned_of_lt hlt]
    exact hlt
  · have hlog : 5 ≤ Nat.log 10 i := Nat.le_log_of_pow_le (by omega) hge
    unfold scanned
    rw [Nat.div_lt_iff_lt_mul (Nat.pow_pos (by omega))]
    calc i < 10 ^ (Nat.log 10 i + 1) := Nat.lt_pow_succ_log_self (by omega) i
      _ = 10 ^ (5 + (Nat.log 10 i - 4)) := by congr 1; omega
      _ = 100000 * 10 ^ (Nat.log 10 i - 4) := by rw [Nat.pow_add]

variable {dir : Dir}

section

omit [WalCodec M]

theorem mem_findSegments : i ∈ dir.findSegments ↔ i ∈ dir.scan :=
  (List.mergeSort_perm _ _).mem_iff

/-- `findSegments` lists the segments in increasing order, each once. -/
theorem Short.pairwise_findSegments (h : dir.Short) :
    dir.findSegments.Pairwise (· < ·) := by
  have hsorted : dir.findSegments.Pairwise (· ≤ ·) := List.pairwise_mergeSort' _ _
  have hnodup : dir.findSegments.Nodup := by
    rw [findSegments, h.scan_eq]
    exact (List.mergeSort_perm _ _).nodup_iff.mpr dir.segments.keys_nodup
  exact hsorted.imp₂ (fun _ _ hle hne => lt_of_le_of_ne hle hne) hnodup

theorem Short.isGreatest (h : dir.Short) (hlegacy : dir.legacy = none) (hi : i ∈ dir.segments) :
    IsGreatest {i | i ∈ dir.segments} dir.findHighestSegmentIndex.2 := by
  have hne : dir.segments.keys ≠ [] := List.ne_nil_of_mem (AList.mem_keys.mp hi)
  rw [findHighestSegmentIndex, hlegacy]
  show IsGreatest _ (dir.scan.max?.getD 0)
  rw [h.scan_eq]
  cases hmax : dir.segments.keys.max? with
  | none => exact absurd (List.max?_eq_none_iff.mp hmax) hne
  | some high =>
    obtain ⟨hmem, hle⟩ := List.max?_eq_some_iff.mp hmax
    exact ⟨AList.mem_keys.mpr hmem, fun j hj => hle j (AList.mem_keys.mp hj)⟩

theorem Short.isLeast (h : dir.Short) (hi : i ∈ dir.segments) :
    IsLeast {i | i ∈ dir.segments} dir.findLowestSegmentIndex := by
  have hne : dir.segments.keys ≠ [] := List.ne_nil_of_mem (AList.mem_keys.mp hi)
  show IsLeast _ (dir.scan.min?.getD 0)
  rw [h.scan_eq]
  cases hmin : dir.segments.keys.min? with
  | none => exact absurd (List.min?_eq_none_iff.mp hmin) hne
  | some low =>
    obtain ⟨hmem, hle⟩ := List.min?_eq_some_iff.mp hmin
    exact ⟨AList.mem_keys.mpr hmem, fun j hj => hle j (AList.mem_keys.mp hj)⟩

end

end Dir

/-! ## What a call does to the numbers -/

namespace FileWAL

variable {w w' : FileWAL M} {k : Nat}

/-- Segment `k` is current now, and it is there; the other segments are as before. -/
structure Opens (k : Nat) (w w' : FileWAL M) : Prop where
  legacy : w'.dir.legacy = w.dir.legacy
  current : w'.segmentIndex = k
  mem : ∀ i, i ∈ w'.dir.segments ↔ i = k ∨ i ∈ w.dir.segments

/-- Segments below the current one may be gone. -/
structure Drops (w w' : FileWAL M) : Prop where
  legacy : w'.dir.legacy = w.dir.legacy
  current : w'.segmentIndex = w.segmentIndex
  mem : ∀ i ∈ w'.dir.segments, i ∈ w.dir.segments
  gone : ∀ i ∈ w.dir.segments, i ∉ w'.dir.segments → i < w.segmentIndex

section

omit [WalCodec M]

theorem Opens.refl (h : w.segmentIndex ∈ w.dir.segments) : Opens w.segmentIndex w w where
  legacy := rfl
  current := rfl
  mem := fun i => by
    constructor
    · exact .inr
    · rintro (rfl | hi)
      · exact h
      · exact hi

theorem opens_flushAndSync (w : FileWAL M) : Opens w.segmentIndex w w.flushAndSync :=
  ⟨rfl, rfl, fun _ => AList.mem_insert _⟩

theorem Opens.flushAndSync (h : Opens k w w') : Opens k w w'.flushAndSync where
  legacy := h.legacy
  current := h.current
  mem := fun i => by
    rw [(opens_flushAndSync w').mem, h.current, h.mem, ← or_assoc, or_self]

theorem opens_rotate (h : w.segmentIndex ∈ w.dir.segments) :
    Opens (w.segmentIndex + 1) w w.rotate where
  legacy := rfl
  current := rfl
  mem := fun i => by
    show i ∈ w.flushAndSync.dir.segments.insert (w.segmentIndex + 1) _ ↔ _
    rw [AList.mem_insert, (opens_flushAndSync w).mem]
    refine or_congr_right (or_iff_right_of_imp ?_)
    rintro rfl
    exact h

end

/-- A write stays in its segment or goes to the next one. -/
theorem opens_write (h : w.segmentIndex ∈ w.dir.segments) (m : M) :
    ∃ k, w.segmentIndex ≤ k ∧ Opens k w (w.write m).1 := by
  have hfull : ∃ k, w.segmentIndex ≤ k ∧ Opens k w w.rotateIfFull := by
    unfold rotateIfFull
    split
    · exact ⟨_, Nat.le_succ _, opens_rotate h⟩
    · exact ⟨_, le_rfl, .refl h⟩
  unfold write
  split
  · split
    · exact hfull
    · -- appending leaves the directory alone
      obtain ⟨k, hk, hopens⟩ := hfull
      exact ⟨k, hk, hopens.legacy, hopens.current, hopens.mem⟩
  · exact ⟨_, le_rfl, .refl h⟩

theorem opens_writeSync (h : w.segmentIndex ∈ w.dir.segments) (m : M) :
    ∃ k, w.segmentIndex ≤ k ∧ Opens k w (w.writeSync m).1 := by
  obtain ⟨k, hk, hopens⟩ := opens_write h m
  rw [(Layout.writeSync_eq w m).2]
  split
  · exact ⟨k, hk, hopens.flushAndSync⟩
  · exact ⟨k, hk, hopens⟩

theorem opens_search (h : w.segmentIndex ∈ w.dir.segments) (height : Int) :
    Opens w.segmentIndex w (w.searchForEndHeight height).1 := by
  have hscan : ∀ list, Opens w.segmentIndex w (w.flushAndSync.scanSegments height list).1 := by
    intro list
    have hflush := opens_flushAndSync w
    rcases Layout.scanSegments_cases height w.flushAndSync list with
      ⟨-, heq⟩ | ⟨before, i, after, -, -, ⟨e, -, heq⟩ | ⟨reader, -, heq⟩⟩
    · rw [heq]
      exact hflush
    · rw [heq]
      exact hflush
    · rw [heq]
      exact ⟨hflush.legacy, hflush.current, hflush.mem⟩
  unfold searchForEndHeight
  split
  · dsimp only
    split
    · exact hscan _
    · split
      · exact opens_flushAndSync w
      · exact opens_flushAndSync w
      · exact hscan _
  · exact .refl h

omit [WalCodec M] in
theorem not_started_stop (w : FileWAL M) : ¬ w.stop.started = true := by
  unfold stop
  split
  · exact Bool.false_ne_true
  · assumption

/-- `Start` opens the highest segment it finds. -/
theorem opens_start (hstopped : ¬ w.started = true) (hlegacy : w.dir.legacy = none) :
    Opens w.dir.findHighestSegmentIndex.2 w w.start := by
  have hdir : w.dir.findHighestSegmentIndex.1 = w.dir := by
    rw [Dir.findHighestSegmentIndex, hlegacy]
  rw [start, if_neg hstopped]
  constructor
  · show w.dir.findHighestSegmentIndex.1.legacy = _
    rw [hdir]
  · rfl
  · intro i
    show i ∈ w.dir.findHighestSegmentIndex.1.segments.insert _ _ ↔ _
    rw [AList.mem_insert, hdir]

omit [WalCodec M] in
theorem legacy_deleteSegments (removes : Nat → Bool) (list : List Nat) (w : FileWAL M) :
    (deleteSegments removes list w).1.dir.legacy = w.dir.legacy := by
  induction list generalizing w with
  | nil => rfl
  | cons index list ih =>
    rw [deleteSegments]
    split
    · exact ih (w.deleteSegment index)
    · rfl

theorem legacy_checkpoint (w : FileWAL M) (removes : Nat → Bool) (height : Int) :
    (w.checkpoint removes height).1.dir.legacy = w.dir.legacy := by
  have hdelete := legacy_deleteSegments removes (w.segmentsToDelete height) w
  unfold checkpoint
  split
  · dsimp only
    split
    · rename_i heq
      rw [heq] at hdelete
      exact hdelete
    · rename_i heq
      rw [heq] at hdelete
      split
      · exact hdelete
      · exact hdelete
  · rfl

/-- A checkpoint deletes segments below the current one. -/
theorem drops_checkpoint (h : w.Ranged) (removes : Nat → Bool) (height : Int) :
    Drops w (w.checkpoint removes height).1 := by
  by_cases hstarted : w.started = true
  · have hremoval := Removal.checkpoint hstarted removes height
    refine ⟨legacy_checkpoint w removes height, hremoval.segmentIndex, fun i hi => ?_,
      fun i hi hgone => ?_⟩
    · rw [← AList.lookup_isSome, hremoval.lookup] at hi
      split at hi
      · cases hi
      · exact AList.lookup_isSome.mp hi
    · rw [← AList.lookup_eq_none, hremoval.lookup] at hgone
      split at hgone
      · rename_i hremoved
        rw [← h.current]
        exact (mem_removed.mp hremoved).2.1
      · exact absurd hi (AList.lookup_eq_none.mp hgone)
  · rw [checkpoint, if_neg hstarted]
    exact ⟨rfl, rfl, fun _ hi => hi, fun i hi hgone => absurd hi hgone⟩

/-! ## Runs -/

/-- The current segment is there, and it is the highest as long as numbers are short. -/
structure Tracked (w : FileWAL M) : Prop where
  legacy : w.dir.legacy = none
  current : w.segmentIndex ∈ w.dir.segments
  highest : w.dir.Short → ∀ i ∈ w.dir.segments, i ≤ w.segmentIndex

namespace Tracked

section

omit [WalCodec M]

theorem opens (h : w.Tracked) (hopens : Opens k w w')
    (hk : w.segmentIndex ≤ k ∨ k = w.dir.findHighestSegmentIndex.2) : w'.Tracked where
  legacy := hopens.legacy.trans h.legacy
  current := by
    rw [hopens.current, hopens.mem]
    exact .inl rfl
  highest := fun hshort i hi => by
    -- nothing is deleted, so the numbers were short before
    have hbefore : w.dir.Short := fun j hj => hshort j ((hopens.mem j).mpr (.inr hj))
    rw [hopens.current]
    rcases (hopens.mem i).mp hi with rfl | hi
    · exact le_rfl
    · rcases hk with hk | rfl
      · exact (h.highest hbefore i hi).trans hk
      · exact (hbefore.isGreatest h.legacy h.current).2 hi

theorem drops (h : w.Tracked) (hdrops : Drops w w') : w'.Tracked := by
  have hcurrent : w.segmentIndex ∈ w'.dir.segments := by
    by_contra hgone
    exact lt_irrefl _ (hdrops.gone _ h.current hgone)
  constructor
  · exact hdrops.legacy.trans h.legacy
  · rw [hdrops.current]
    exact hcurrent
  · intro hshort i hi
    -- what is deleted is below the current segment, which is short
    have hbefore : w.dir.Short := by
      intro j hj
      by_cases hgone : j ∈ w'.dir.segments
      · exact hshort j hgone
      · exact (hdrops.gone j hj hgone).trans (hshort _ hcurrent)
    rw [hdrops.current]
    exact h.highest hbefore i (hdrops.mem i hi)

theorem stop (h : w.Tracked) : Opens w.segmentIndex w w.stop := by
  unfold FileWAL.stop
  split
  · exact ⟨rfl, rfl, (opens_flushAndSync w).mem⟩
  · exact .refl h.current

theorem flush (h : w.Tracked) : Opens w.segmentIndex w w.flush.1 := by
  unfold FileWAL.flush
  split
  · exact opens_flushAndSync w
  · exact .refl h.current

end

end Tracked

end FileWAL

open FileWAL

namespace Log

/-- Every call keeps track of the current segment. -/
theorem step_tracked {l : Log M} (h : l.wal.Tracked) (hranged : l.wal.Ranged) (op : Op M) :
    (l.step op).wal.Tracked := by
  cases op with
  | start =>
    by_cases hstarted : l.wal.started = true
    · show l.wal.start.Tracked
      rw [FileWAL.start, if_pos hstarted]
      exact h
    · exact h.opens (opens_start hstarted h.legacy) (.inr rfl)
  | stop => exact h.opens h.stop (.inl le_rfl)
  | flush => exact h.opens h.flush (.inl le_rfl)
  | write m =>
    obtain ⟨k, hk, hopens⟩ := opens_write h.current m
    show (l.accept m (l.wal.write m)).wal.Tracked
    rw [wal_accept]
    exact h.opens hopens (.inl hk)
  | writeSync m =>
    obtain ⟨k, hk, hopens⟩ := opens_writeSync h.current m
    show (l.accept m (l.wal.writeSync m)).wal.Tracked
    rw [wal_accept]
    exact h.opens hopens (.inl hk)
  | search height => exact h.opens (opens_search h.current height) (.inl le_rfl)
  | checkpoint removes height => exact h.drops (drops_checkpoint hranged removes height)

theorem run_tracked (ops : List (Op M)) {l : Log M} (h : l.wal.Tracked)
    (hranged : l.wal.Ranged) : (l.run ops).wal.Tracked := by
  induction ops generalizing l with
  | nil => exact h
  | cons op ops ih => exact ih (step_tracked h hranged op) (step_ranged hranged op)

theorem new_tracked (maxSegSize : Int) : (new M maxSegSize).wal.Tracked where
  legacy := rfl
  current := (AList.mem_insert _).mpr (.inl rfl)
  highest := fun _ i hi => by
    rcases (AList.mem_insert _).mp hi with rfl | hi
    · exact le_rfl
    · exact absurd hi (AList.notMem_empty i)

end Log

/-! ## Scans -/

/-- The directory is scanned as it is: the segments in increasing order, their highest and
lowest number, and a restart goes on with the current segment. -/
structure FileWAL.Scans (w : FileWAL M) [WalCodec M] : Prop where
  sorted : w.dir.findSegments.Pairwise (· < ·)
  mem : ∀ i, i ∈ w.dir.findSegments ↔ i ∈ w.dir.segments
  highest : IsGreatest {i | i ∈ w.dir.segments} w.dir.findHighestSegmentIndex.2
  lowest : IsLeast {i | i ∈ w.dir.segments} w.dir.findLowestSegmentIndex
  resumes : w.stop.start.segmentIndex = w.segmentIndex

theorem FileWAL.Tracked.resumes {w : FileWAL M} (h : w.Tracked) (hshort : w.dir.Short) :
    w.stop.start.segmentIndex = w.segmentIndex := by
  have hopens := h.stop
  have htracked := h.opens hopens (.inl le_rfl)
  have hshort' : w.stop.dir.Short := by
    intro i hi
    rcases (hopens.mem i).mp hi with rfl | hi
    · exact hshort _ h.current
    · exact hshort i hi
  rw [(opens_start (not_started_stop w) htracked.legacy).current]
  -- the highest segment that is found is the current one
  have hgreatest := hshort'.isGreatest htracked.legacy htracked.current
  have hcurrent : IsGreatest {i | i ∈ w.stop.dir.segments} w.stop.segmentIndex :=
    ⟨htracked.current, htracked.highest hshort'⟩
  rw [hgreatest.unique hcurrent, hopens.current]

/-- **File names are read back exactly below 100000.** After any calls on a log that began
in an empty directory, the scans of the directory are right and a restart goes on with the
current segment, exactly if no segment has a number of more than five digits. -/
theorem scans_iff (maxSegSize : Int) (ops : List (Op M)) :
    ((Log.new M maxSegSize).run ops).wal.Scans ↔
      ∀ i ∈ ((Log.new M maxSegSize).run ops).wal.dir.segments, i < 100000 := by
  have htracked := Log.run_tracked ops (Log.new_tracked maxSegSize)
    (Log.new_laid (M := M) maxSegSize).ranged
  constructor
  · intro hscans i hi
    -- a number that is read has at most five digits
    obtain ⟨j, -, rfl⟩ := List.mem_map.mp (Dir.mem_findSegments.mp ((hscans.mem i).mpr hi))
    exact Dir.scanned_lt j
  · intro hshort
    have hshort : ((Log.new M maxSegSize).run ops).wal.dir.Short := hshort
    refine ⟨hshort.pairwise_findSegments, fun i => ?_,
      hshort.isGreatest htracked.legacy htracked.current, hshort.isLeast htracked.current,
      htracked.resumes hshort⟩
    rw [Dir.mem_findSegments, hshort.scan_eq, AList.mem_keys]

/-! ## A long log -/

/-- A write to a full segment goes to the next one, and fills that one too if the segments
are small. -/
theorem write_full {w : FileWAL M} {m : M} {data : Bytes} (hdata : WalCodec.marshal m = some data)
    (hstarted : w.started = true) (hcurrent : w.segmentIndex ∈ w.dir.segments)
    (hsize : w.maxSegSize ≤ 1) (hfull : w.maxSegSize ≤ w.segmentSize) :
    (w.write m).1.started = true ∧ (w.write m).1.maxSegSize ≤ 1 ∧
      (w.write m).1.maxSegSize ≤ (w.write m).1.segmentSize ∧
      Opens (w.segmentIndex + 1) w (w.write m).1 := by
  have hwrite : (w.write m).1 = w.rotate.append m data := by
    unfold write rotateIfFull
    rw [if_pos hstarted, if_pos hfull, hdata]
  have hopens := opens_rotate hcurrent
  rw [hwrite]
  refine ⟨hstarted, hsize, ?_, hopens.legacy, hopens.current, hopens.mem⟩
  show w.maxSegSize ≤ _ + (4 + data.length + 4)
  omega

omit [WalCodec M] in
/-- Segment 99999 is the highest that is ever found. -/
theorem Dir.findHighest_of_mem {dir : Dir} (hlegacy : dir.legacy = none)
    (hmem : 99999 ∈ dir.segments) : dir.findHighestSegmentIndex.2 = 99999 := by
  have hmax : dir.scan.max? = some 99999 := by
    rw [List.max?_eq_some_iff]
    refine ⟨List.mem_map.mpr ⟨99999, AList.mem_keys.mp hmem, scanned_of_lt (by omega)⟩, ?_⟩
    intro i hi
    obtain ⟨j, -, rfl⟩ := List.mem_map.mp hi
    exact Nat.le_of_lt_succ (scanned_lt j)
  rw [findHighestSegmentIndex, hlegacy]
  show dir.scan.max?.getD 0 = 99999
  rw [hmax]
  rfl

section logs

attribute [local instance] markCodec

/-- A log whose segments are full after one record, after `n + 1` records. -/
def longLog (n : Nat) : Log Mark :=
  (Log.new Mark 1).run (List.replicate (n + 1) (.write ⟨1, false⟩))

theorem longLog_succ (n : Nat) : (longLog (n + 1)).wal = ((longLog n).wal.write ⟨1, false⟩).1 := by
  unfold longLog Log.run
  rw [List.replicate_succ', List.foldl_concat]
  exact Log.wal_accept ..

/-- Every record has its segment. -/
theorem longLog_segments (n : Nat) :
    (longLog n).wal.started = true ∧ (longLog n).wal.maxSegSize ≤ 1 ∧
      (longLog n).wal.maxSegSize ≤ (longLog n).wal.segmentSize ∧
      (longLog n).wal.segmentIndex = n ∧ ∀ i, i ∈ (longLog n).wal.dir.segments ↔ i ≤ n := by
  induction n with
  | zero =>
    have hkeys : (longLog 0).wal.dir.segments.keys = [0] := by decide +kernel
    refine ⟨by decide +kernel, by decide +kernel, by decide +kernel, by decide +kernel, fun i => ?_⟩
    rw [AList.mem_keys, hkeys, List.mem_singleton, Nat.le_zero]
  | succ n ih =>
    obtain ⟨hstarted, hsize, hfull, hindex, hmem⟩ := ih
    have hcurrent : (longLog n).wal.segmentIndex ∈ (longLog n).wal.dir.segments :=
      (hmem _).mpr hindex.le
    obtain ⟨hstarted', hsize', hfull', hopens⟩ :=
      write_full (m := (⟨1, false⟩ : Mark)) rfl hstarted hcurrent hsize hfull
    rw [longLog_succ]
    refine ⟨hstarted', hsize', hfull', hopens.current.trans (by rw [hindex]), fun i => ?_⟩
    rw [hopens.mem, hmem, hindex]
    omega

/-- Segment 100000 is there and current, but no scan finds it: its name is read as 10000, and
a restart goes back to segment 99999. -/
theorem restart_goes_back :
    100000 ∈ (longLog 100000).wal.dir.segments ∧ (longLog 100000).wal.segmentIndex = 100000 ∧
    100000 ∉ (longLog 100000).wal.dir.findSegments ∧
    (longLog 100000).wal.dir.findHighestSegmentIndex.2 = 99999 ∧
    (longLog 100000).wal.stop.start.segmentIndex = 99999 := by
  obtain ⟨-, -, -, hindex, hmem⟩ := longLog_segments 100000
  have htracked : (longLog 100000).wal.Tracked :=
    Log.run_tracked _ (Log.new_tracked 1) (Log.new_laid 1).ranged
  have hbelow : 99999 ∈ (longLog 100000).wal.dir.segments := (hmem _).mpr (by omega)
  refine ⟨(hmem _).mpr le_rfl, hindex, fun hfound => ?_,
    Dir.findHighest_of_mem htracked.legacy hbelow, ?_⟩
  · obtain ⟨j, -, hj⟩ := List.mem_map.mp (Dir.mem_findSegments.mp hfound)
    exact absurd hj (Dir.scanned_lt j).ne
  · have hstop := htracked.stop
    have hlegacy := hstop.legacy.trans htracked.legacy
    rw [(opens_start (not_started_stop _) hlegacy).current]
    exact Dir.findHighest_of_mem hlegacy ((hstop.mem _).mpr (.inr hbelow))

end logs

end Leaderberry.Wal
