import Mathlib.Data.List.Induction
import Leaderberry.Wal.Records

/-!
# What is in the segments

The journal of a log is the list of the messages it accepted, each with the segment it went
to. `Layout` relates the two: segment `i` holds the records of the journal entries of
segment `i`, in order, and the height index points to markers that are there. Every
operation of `FileWAL` keeps it, under the name of the operation.

`Start` needs two more things. It reads segment numbers from file names, which goes wrong
from the number 100000 on, and it reads all segments, for which the lengths have to fit the
length fields of the records.
-/

namespace Leaderberry.Wal

open RecordStream

variable {M : Type} [WalCodec M]

/-! ## Scanning a directory -/

namespace Dir

omit [WalCodec M] in
theorem scanned_of_lt {i : Nat} (hi : i < 100000) : scanned i = i := by
  have hlog : Nat.log 10 i - 4 = 0 := by
    rcases Nat.eq_zero_or_pos i with rfl | hpos
    · simp
    · have := Nat.log_lt_of_lt_pow (b := 10) (x := 5) (y := i) (by omega) (by omega)
      omega
  rw [scanned, hlog, Nat.pow_zero, Nat.div_one]

/-- All segment numbers have at most five digits. -/
def Short (dir : Dir) : Prop := ∀ i ∈ dir.segments, i < 100000

omit [WalCodec M] in
/-- Short file names are read as they were written. -/
theorem Short.scan_eq {dir : Dir} (h : dir.Short) : dir.scan = dir.segments.keys := by
  unfold scan
  conv_rhs => rw [← List.map_id dir.segments.keys]
  exact List.map_congr_left fun i hi => scanned_of_lt (h i (AList.mem_keys.mpr hi))

/-- The segments are those with the numbers from `low` to `high`. -/
structure Spans (low high : Nat) (dir : Dir) : Prop where
  legacy : dir.legacy = none
  mem : ∀ i, i ∈ dir.segments ↔ low ≤ i ∧ i ≤ high
  le : low ≤ high

variable {low high : Nat} {dir : Dir}

theorem Spans.scan_eq (h : dir.Spans low high) (hnum : high < 100000) :
    dir.scan = dir.segments.keys :=
  Short.scan_eq fun i hi => ((h.mem i).mp hi).2.trans_lt hnum

theorem Spans.findHighestSegmentIndex (h : dir.Spans low high) (hnum : high < 100000) :
    dir.findHighestSegmentIndex = (dir, high) := by
  have hmax : dir.segments.keys.max? = some high := by
    rw [List.max?_eq_some_iff]
    exact ⟨(h.mem _).mpr ⟨h.le, le_rfl⟩, fun i hi => ((h.mem i).mp hi).2⟩
  rw [Dir.findHighestSegmentIndex, h.legacy, h.scan_eq hnum, hmax]
  rfl

theorem Spans.findLowestSegmentIndex (h : dir.Spans low high) (hnum : high < 100000) :
    dir.findLowestSegmentIndex = low := by
  have hmin : dir.segments.keys.min? = some low := by
    rw [List.min?_eq_some_iff]
    exact ⟨(h.mem _).mpr ⟨le_rfl, h.le⟩, fun i hi => ((h.mem i).mp hi).1⟩
  rw [Dir.findLowestSegmentIndex, h.scan_eq hnum, hmin]
  rfl

theorem Spans.findSegments (h : dir.Spans low high) (hnum : high < 100000) :
    dir.findSegments = indices low high := by
  have hperm : dir.segments.keys.Perm (indices low high) := by
    unfold indices
    rw [List.perm_ext_iff_of_nodup dir.segments.keys_nodup List.nodup_range']
    intro i
    rw [← AList.mem_keys, h.mem, List.mem_range'_1]
    have := h.le
    omega
  rw [Dir.findSegments, h.scan_eq hnum]
  refine List.Perm.eq_of_pairwise' (r := (· ≤ ·)) (List.pairwise_mergeSort' _ _) ?_
    ((List.mergeSort_perm _ _).trans hperm)
  exact List.pairwise_le_range'

end Dir

/-! ## The layout -/

/-- The layout but for the content of the current segment. -/
structure Outline (low : Nat) (w : FileWAL M) (journal : List (Nat × M)) : Prop where
  legacy : w.dir.legacy = none
  mem : ∀ i, i ∈ w.dir.segments ↔ low ≤ i ∧ i ≤ w.segmentIndex
  closed : ∀ i, low ≤ i → i < w.segmentIndex →
    ∃ tail, IsTail (M := M) tail ∧ w.segment i = records (logOf journal i) ++ tail
  low_le : low ≤ w.segmentIndex
  minIndex_le : w.minIndex ≤ low
  maxIndex_eq : w.maxIndex = w.segmentIndex
  stopped : w.started = false → w.buf = []
  sorted : journal.Pairwise fun e₁ e₂ => e₁.1 ≤ e₂.1
  le : ∀ e ∈ journal, e.1 ≤ w.segmentIndex
  encoded : ∀ e ∈ journal, (WalCodec.marshal e.2).isSome
  index : ∀ h k, w.heightIndex.lookup h = some k →
    low ≤ k ∧ ∃ m, (k, m) ∈ journal ∧ FileWAL.endsHeight h m = true

/-- The segments from `low` on hold the journal. Segments below it were deleted. A closed
segment may end with leftover bytes of a crash that read as its end. -/
structure Layout (low : Nat) (w : FileWAL M) (journal : List (Nat × M)) : Prop
    extends Outline low w journal where
  current : w.segment w.segmentIndex ++ w.buf = records (logOf journal w.segmentIndex)

namespace Layout

open FileWAL

variable {low : Nat} {w : FileWAL M} {journal : List (Nat × M)}

omit [WalCodec M] in
/-- Flushing changes the current segment only. -/
theorem segment_flushAndSync (w : FileWAL M) {i : Nat} (hi : i ≠ w.segmentIndex) :
    w.flushAndSync.segment i = w.segment i := by
  unfold FileWAL.flushAndSync FileWAL.segment
  rw [AList.lookup_insert_ne hi]

theorem flushAndSync_current (h : Layout low w journal) :
    w.flushAndSync.segment w.segmentIndex = records (logOf journal w.segmentIndex) := by
  unfold FileWAL.flushAndSync FileWAL.segment
  rw [AList.lookup_insert]
  exact h.current

theorem flushAndSync (h : Layout low w journal) : Layout low w.flushAndSync journal where
  legacy := h.legacy
  mem := fun i => by
    rw [FileWAL.flushAndSync, AList.mem_insert, h.mem]
    constructor
    · rintro (rfl | hi)
      · exact ⟨h.low_le, le_rfl⟩
      · exact hi
    · exact .inr
  closed := fun i hlow hi => by
    rw [segment_flushAndSync w (show i ≠ w.segmentIndex from hi.ne)]
    exact h.closed i hlow hi
  current := (List.append_nil _).trans h.flushAndSync_current
  low_le := h.low_le
  minIndex_le := h.minIndex_le
  maxIndex_eq := h.maxIndex_eq
  stopped := fun _ => rfl
  sorted := h.sorted
  le := h.le
  encoded := h.encoded
  index := h.index

end Layout

namespace Outline

variable {low : Nat} {w : FileWAL M} {journal : List (Nat × M)}

theorem spans (h : Outline low w journal) : w.dir.Spans low w.segmentIndex :=
  ⟨h.legacy, h.mem, h.low_le⟩

theorem logOf_next (h : Outline low w journal) : logOf journal (w.segmentIndex + 1) = [] := by
  refine List.eq_nil_iff_forall_not_mem.mpr fun m hm => ?_
  have := h.le _ (mem_logOf.mp hm)
  simp only at this
  omega

theorem segment_next (h : Outline low w journal) :
    w.flushAndSync.segment (w.segmentIndex + 1) = [] := by
  have hnone : w.dir.segments.lookup (w.segmentIndex + 1) = none := by
    rw [AList.lookup_eq_none, h.mem]
    omega
  rw [Layout.segment_flushAndSync w (Nat.succ_ne_self _), FileWAL.segment, hnone]
  rfl

/-- A rotation closes the current segment, also one that ends with leftover bytes. -/
theorem rotate (h : Outline low w journal) {tail : Bytes} (htail : IsTail (M := M) tail)
    (hcurrent : w.segment w.segmentIndex ++ w.buf =
      records (logOf journal w.segmentIndex) ++ tail) : Layout low w.rotate journal where
  legacy := h.legacy
  mem := fun i => by
    show i ∈ AList.insert _ _ (AList.insert _ _ w.dir.segments) ↔ _ ∧ i ≤ w.segmentIndex + 1
    rw [AList.mem_insert, AList.mem_insert, h.mem]
    have := h.low_le
    omega
  closed := fun i hlow hi => by
    have hi' : i < w.segmentIndex + 1 := hi
    have hsegment : w.rotate.segment i = w.flushAndSync.segment i := by
      show (AList.lookup i (AList.insert _ _ w.flushAndSync.dir.segments)).getD [] = _
      rw [AList.lookup_insert_ne (by omega)]
      rfl
    rw [hsegment]
    rcases (Nat.lt_succ_iff.mp hi').eq_or_lt with rfl | hlt
    · refine ⟨tail, htail, ?_⟩
      rw [← hcurrent, FileWAL.segment, FileWAL.flushAndSync, AList.lookup_insert]
      rfl
    · rw [Layout.segment_flushAndSync w hlt.ne]
      exact h.closed i hlow hlt
  current := by
    show (AList.lookup (w.segmentIndex + 1)
      (AList.insert _ _ w.flushAndSync.dir.segments)).getD [] ++ [] =
        records (logOf journal (w.segmentIndex + 1))
    rw [AList.lookup_insert, h.logOf_next, h.segment_next]
    rfl
  low_le := h.low_le.trans (Nat.le_succ _)
  minIndex_le := h.minIndex_le
  maxIndex_eq := rfl
  stopped := fun _ => rfl
  sorted := h.sorted
  le := fun e he => (h.le e he).trans (Nat.le_succ _)
  encoded := h.encoded
  index := h.index

end Outline

namespace Layout

open FileWAL

variable {low : Nat} {w : FileWAL M} {journal : List (Nat × M)} {height : Int} {k i : Nat}
  {bytes : Bytes}

theorem rotate (h : Layout low w journal) : Layout low w.rotate journal :=
  h.toOutline.rotate isTail_nil (h.current.trans (List.append_nil _).symm)

theorem rotateIfFull (h : Layout low w journal) : Layout low w.rotateIfFull journal := by
  unfold FileWAL.rotateIfFull
  split
  · exact h.rotate
  · exact h

omit [WalCodec M] in
/-- What is left in a map after erasing keys. -/
theorem lookup_foldl_erase {K V : Type} [DecidableEq K] {k : K} {v : V} :
    ∀ (keys : List K) (map : GoMap K V),
      (keys.foldl (fun map k => map.erase k) map).lookup k = some v ↔
      map.lookup k = some v ∧ k ∉ keys
  | [], map => by simp
  | key :: keys, map => by
    rw [List.foldl_cons, lookup_foldl_erase keys (map.erase key), List.mem_cons, not_or,
      ← and_assoc]
    refine and_congr_left fun _ => ?_
    by_cases hkey : k = key
    · subst hkey
      rw [AList.lookup_erase]
      simp
    · rw [AList.lookup_erase_ne hkey]
      simp [hkey]

theorem append (h : Layout low w journal) {m : M} {data : Bytes}
    (hdata : WalCodec.marshal m = some data) (hstarted : w.started = true) :
    Layout low (w.append m data) (journal ++ [(w.segmentIndex, m)]) where
  legacy := h.legacy
  mem := h.mem
  closed := fun i hlow hi => by
    have hi' : i < w.segmentIndex := hi
    have hnone : logOf [(w.segmentIndex, m)] i = [] := by
      simp [logOf, hi'.ne']
    rw [logOf_append, hnone, List.append_nil]
    exact h.closed i hlow hi
  current := by
    have hone : logOf [(w.segmentIndex, m)] w.segmentIndex = [m] := by simp [logOf]
    have hrecord : record m = frame M data := by
      rw [record, hdata]
      rfl
    show w.segment w.segmentIndex ++ (w.buf ++ frame M data) = _
    rw [← List.append_assoc, h.current]
    show _ = records (logOf (journal ++ [(w.segmentIndex, m)]) w.segmentIndex)
    rw [logOf_append, hone, records_append, ← hrecord]
    simp [records]
  low_le := h.low_le
  minIndex_le := h.minIndex_le
  maxIndex_eq := h.maxIndex_eq
  stopped := fun hs => absurd hstarted (by rw [show w.started = false from hs]; simp)
  sorted := by
    rw [List.pairwise_append]
    refine ⟨h.sorted, List.pairwise_singleton _ _, fun a ha b hb => ?_⟩
    rw [List.mem_singleton.mp hb]
    exact h.le a ha
  le := fun e he => by
    rcases List.mem_append.mp he with he | he
    · exact h.le e he
    · rw [List.mem_singleton.mp he]
      exact le_rfl
  encoded := fun e he => by
    rcases List.mem_append.mp he with he | he
    · exact h.encoded e he
    · rw [List.mem_singleton.mp he]
      exact Option.isSome_iff_exists.mpr ⟨data, hdata⟩
  index := fun height k hlookup => by
    have hold : w.heightIndex.lookup height = some k →
        low ≤ k ∧ ∃ x, (k, x) ∈ journal ++ [(w.segmentIndex, m)] ∧ endsHeight height x = true := by
      intro hlookup
      obtain ⟨hlow, x, hx, hends⟩ := h.index height k hlookup
      exact ⟨hlow, x, List.mem_append_left _ hx, hends⟩
    unfold FileWAL.append at hlookup
    dsimp only at hlookup
    split at hlookup
    · rename_i hend
      obtain ⟨hlookup, -⟩ := (lookup_foldl_erase _ _).mp hlookup
      by_cases hheight : height = WalCodec.height m
      · subst hheight
        rw [AList.lookup_insert] at hlookup
        cases hlookup
        refine ⟨h.low_le, m, List.mem_append_right _ (List.mem_singleton.mpr rfl), ?_⟩
        simp [endsHeight, hend]
      · rw [AList.lookup_insert_ne hheight] at hlookup
        exact hold hlookup
    · exact hold hlookup

/-- An index entry may be added for a marker that is there. -/
theorem insertIndex (h : Layout low w journal) (hlow : low ≤ k)
    (hk : ∃ m, (k, m) ∈ journal ∧ endsHeight height m = true) :
    Layout low { w with heightIndex := w.heightIndex.insert height k } journal :=
  { h with
    index := fun height' k' hlookup => by
      dsimp only at hlookup
      by_cases heq : height' = height
      · subst heq
        rw [AList.lookup_insert] at hlookup
        cases hlookup
        exact ⟨hlow, hk⟩
      · rw [AList.lookup_insert_ne heq] at hlookup
        exact h.index height' k' hlookup }

omit [WalCodec M] in
/-- The index forgets what was in the segment, and nothing else. -/
theorem lookup_deleteSegment {index : Nat} :
    (w.deleteSegment index).heightIndex.lookup height = some k ↔
      w.heightIndex.lookup height = some k ∧ k ≠ index := by
  refine (lookup_foldl_erase _ _).trans (and_congr_right fun hlookup => ?_)
  have hkey : height ∈ w.heightIndex.keys :=
    AList.lookup_isSome.mp (Option.isSome_iff_exists.mpr ⟨k, hlookup⟩)
  simp [List.mem_filter, hkey, hlookup]

theorem deleteSegment (h : Layout low w journal) (hlow : low < w.segmentIndex) :
    Layout (low + 1) (w.deleteSegment low) journal where
  legacy := h.legacy
  mem := fun i => by
    show i ∈ w.dir.segments.erase low ↔ _ ∧ i ≤ w.segmentIndex
    rw [AList.mem_erase, h.mem]
    omega
  closed := fun i hi hlt => by
    have hsegment : (w.deleteSegment low).segment i = w.segment i := by
      show ((w.dir.segments.erase low).lookup i).getD [] = _
      rw [AList.lookup_erase_ne (by omega)]
      rfl
    rw [hsegment]
    exact h.closed i (by omega) hlt
  current := by
    show ((w.dir.segments.erase low).lookup w.segmentIndex).getD [] ++ w.buf = _
    rw [AList.lookup_erase_ne (by omega)]
    exact h.current
  low_le := hlow
  minIndex_le := h.minIndex_le.trans (Nat.le_succ _)
  maxIndex_eq := h.maxIndex_eq
  stopped := h.stopped
  sorted := h.sorted
  le := h.le
  encoded := h.encoded
  index := fun height k hlookup => by
    obtain ⟨hbefore, hne⟩ := lookup_deleteSegment.mp hlookup
    obtain ⟨hk, hm⟩ := h.index height k hbefore
    exact ⟨by omega, hm⟩

/-- The deletion loop takes the lowest segments away, up to one that it cannot remove. -/
theorem deleteSegments (removes : Nat → Bool) : ∀ (n : Nat) {low : Nat} {w : FileWAL M},
    Layout low w journal → low + n ≤ w.segmentIndex →
    ∃ low', low ≤ low' ∧
      Layout low' (FileWAL.deleteSegments removes (List.range' low n) w).1 journal ∧
      ((FileWAL.deleteSegments removes (List.range' low n) w).2 = .ok () → low' = low + n)
  | 0, low, w, h, _ => ⟨low, le_rfl, h, fun _ => rfl⟩
  | n + 1, low, w, h, hn => by
    rw [List.range'_succ, FileWAL.deleteSegments]
    split
    · obtain ⟨low', hle, hlayout, hok⟩ := deleteSegments removes n
        (h.deleteSegment (by omega)) (show low + 1 + n ≤ w.segmentIndex by omega)
      exact ⟨low', by omega, hlayout, fun h' => by rw [hok h']; omega⟩
    · exact ⟨low, le_rfl, h, fun h' => nomatch h'⟩

omit [WalCodec M] in
/-- Taking a first part of a range. -/
theorem takeWhile_range' (p : Nat → Bool) : ∀ a n : Nat,
    ∃ k ≤ n, (List.range' a n).takeWhile p = List.range' a k
  | a, 0 => ⟨0, le_rfl, rfl⟩
  | a, n + 1 => by
    by_cases hp : p a = true
    · obtain ⟨k, hk, heq⟩ := takeWhile_range' p (a + 1) n
      refine ⟨k + 1, by omega, ?_⟩
      rw [List.range'_succ, List.range'_succ, List.takeWhile_cons_of_pos hp, heq]
    · refine ⟨0, by omega, ?_⟩
      rw [List.range'_succ, List.takeWhile_cons_of_neg hp]
      rfl

/-- The segments to delete are the lowest ones, if the lowest one is where `MinIndex` says. -/
theorem segmentsToDelete_eq (h : Layout low w journal) (height : Int) :
    ∃ n, low + n ≤ w.segmentIndex ∧ w.segmentsToDelete height = List.range' low n ∧
      (0 < n → w.minIndex = low) := by
  have hmax := h.maxIndex_eq
  have hlow := h.low_le
  obtain ⟨n, hn, heq⟩ := takeWhile_range'
    (fun index => w.canDeleteSegment index height = .ok true) w.minIndex (w.maxIndex - w.minIndex)
  have hmin := h.minIndex_le
  rcases hmin.eq_or_lt with hmin | hlt
  · rw [← hmin]
    exact ⟨n, by omega, heq, fun _ => rfl⟩
  · -- The lowest number is that of a deleted segment: nothing can be deleted.
    refine ⟨0, hlow, ?_, fun h => absurd h (lt_irrefl 0)⟩
    have hmissing : w.dir.segments.lookup w.minIndex = none := by
      rw [AList.lookup_eq_none, h.mem]
      omega
    rw [FileWAL.segmentsToDelete]
    cases hspan : w.maxIndex - w.minIndex with
    | zero => rfl
    | succ k =>
      rw [List.range'_succ, List.takeWhile_cons_of_neg]
      · rfl
      · simp [FileWAL.canDeleteSegment, hmissing]

theorem withMinIndex (h : Layout low w journal) {minIndex : Nat} (hmin : minIndex ≤ low) :
    Layout low { w with minIndex } journal :=
  { h with minIndex_le := hmin }

theorem checkpoint (h : Layout low w journal) (removes : Nat → Bool) (height : Int) :
    ∃ low', low ≤ low' ∧ Layout low' (w.checkpoint removes height).1 journal := by
  unfold FileWAL.checkpoint
  split
  · obtain ⟨n, hn, heq, -⟩ := h.segmentsToDelete_eq height
    obtain ⟨low', hle, hlayout, hok⟩ := deleteSegments removes n h hn
    dsimp only
    rw [heq]
    refine ⟨low', hle, ?_⟩
    cases hdel : FileWAL.deleteSegments removes (List.range' low n) w with
    | mk w' result =>
      rw [hdel] at hlayout hok
      cases result with
      | error e => exact hlayout
      | ok =>
        dsimp only
        split
        · exact hlayout
        · rename_i index hlast
          have hindex : index ∈ List.range' low n := List.mem_of_getLast? hlast
          rw [List.mem_range'_1] at hindex
          have := hok rfl
          exact hlayout.withMinIndex (by omega)
  · exact ⟨low, le_rfl, h⟩

/-! ### Start -/

/-- The messages of a segment point the index at it if one of them is a marker. -/
theorem lookup_foldl_indexMsg {index : Nat} (msgs : List M) :
    ∀ heightIndex : GoMap Int Nat,
      (msgs.foldl (indexMsg index) heightIndex).lookup height =
        if msgs.any (endsHeight height) then some index else heightIndex.lookup height := by
  induction msgs with
  | nil => exact fun _ => rfl
  | cons m msgs ih =>
    intro heightIndex
    have hone : (indexMsg index heightIndex m).lookup height =
        if endsHeight height m then some index else heightIndex.lookup height := by
      unfold indexMsg endsHeight
      by_cases hend : WalCodec.isEndHeight m = true
      · by_cases hheight : height = WalCodec.height m
        · rw [if_pos hend, hheight, AList.lookup_insert]
          simp [hend]
        · rw [if_pos hend, AList.lookup_insert_ne hheight]
          simp [Ne.symm hheight]
      · simp [hend]
    rw [List.foldl_cons, ih, hone, List.any_cons]
    cases endsHeight height m <;> cases msgs.any (endsHeight height) <;> rfl

variable (M) in
/-- A segment in which a marker is read. -/
def marks (dir : Dir) (height : Int) (index : Nat) : Bool :=
  match dir.segments.lookup index with
  | none => false
  | some bytes => ((decoder M).read bytes).1.any (endsHeight height)

/-- The index points at the last segment with a marker. -/
theorem lookup_foldl_indexSegment {dir : Dir} (indices : List Nat) :
    (indices.foldl (indexSegment (M := M) dir) ∅).lookup height =
      (indices.filter (marks M dir height)).getLast? := by
  induction indices using List.reverseRecOn with
  | nil => rfl
  | append_singleton indices i ih =>
    rw [List.foldl_append, List.foldl_cons, List.foldl_nil, List.filter_append]
    have hi : marks M dir height i = match dir.segments.lookup i with
      | none => false
      | some bytes => ((decoder M).read bytes).1.any (endsHeight height) := rfl
    unfold indexSegment
    cases hbytes : dir.segments.lookup i with
    | none =>
      rw [hbytes] at hi
      rw [List.filter_cons_of_neg (by simp [hi]), List.filter_nil, List.append_nil]
      exact ih
    | some bytes =>
      rw [hbytes] at hi
      dsimp only at hi ⊢
      rw [lookup_foldl_indexMsg, ← hi]
      cases hmarks : marks M dir height i with
      | true => simp [hmarks]
      | false =>
        rw [List.filter_cons_of_neg (by simp [hmarks]), List.filter_nil, List.append_nil]
        exact ih

/-- What the index points at. -/
theorem marked_of_lookup {dir : Dir} {indices : List Nat}
    (h : (indices.foldl (indexSegment (M := M) dir) ∅).lookup height = some k) :
    k ∈ indices ∧ ∃ bytes, dir.segments.lookup k = some bytes ∧
      ∃ m ∈ ((decoder M).read bytes).1, endsHeight height m = true := by
  rw [lookup_foldl_indexSegment] at h
  obtain ⟨hk, hmarks⟩ := List.mem_filter.mp (List.mem_of_getLast? h)
  refine ⟨hk, ?_⟩
  unfold marks at hmarks
  split at hmarks
  · cases hmarks
  · rename_i bytes hbytes
    exact ⟨bytes, hbytes, List.any_eq_true.mp hmarks⟩

/-- A segment that exists, of a log that is flushed, holds its part of the journal. -/
theorem segment_eq (h : Layout low w journal) (hbuf : w.buf = [])
    (hi : w.dir.segments.lookup i = some bytes) :
    low ≤ i ∧ i ≤ w.segmentIndex ∧
      ∃ tail, IsTail (M := M) tail ∧ bytes = records (logOf journal i) ++ tail := by
  obtain ⟨hlow, hle⟩ := (h.mem i).mp (AList.lookup_isSome.mp (by rw [hi]; rfl))
  refine ⟨hlow, hle, ?_⟩
  have hseg : w.segment i = bytes := by
    rw [FileWAL.segment, hi]
    rfl
  rcases hle.eq_or_lt with rfl | hlt
  · have := h.current
    rw [hbuf, List.append_nil, hseg] at this
    exact ⟨[], isTail_nil, by rw [this, List.append_nil]⟩
  · rw [← hseg]
    exact h.closed i hlow hlt

/-- It is read like the records of that part. -/
theorem read_segment (h : Layout low w journal) (hbuf : w.buf = [])
    (hfits : ∀ e ∈ journal, Fits e.2) (hi : w.dir.segments.lookup i = some bytes) :
    (decoder M).read bytes = (decoder M).read (records (logOf journal i)) := by
  obtain ⟨-, -, tail, htail, rfl⟩ := h.segment_eq hbuf hi
  exact read_records_tail (fun m hm => hfits _ (mem_logOf.mp hm)) htail

/-- What is read from a segment is in the journal. -/
theorem mem_journal_of_read (h : Layout low w journal) (hbuf : w.buf = [])
    (hfits : ∀ e ∈ journal, Fits e.2) (hi : w.dir.segments.lookup i = some bytes) {m : M}
    (hm : m ∈ ((decoder M).read bytes).1) :
    (i, m) ∈ journal := by
  rw [h.read_segment hbuf hfits hi] at hm
  exact mem_logOf.mp (mem_of_mem_read (fun x hx => hfits _ (mem_logOf.mp hx)) hm)

/-- `Start` on a directory in which it reads the file names right. -/
theorem start_eq {high : Nat} (hstopped : w.started = false) (hspans : w.dir.Spans low high)
    (hnum : high < 100000) :
    w.start =
      { w with
        dir := { w.dir with segments := w.dir.segments.insert high (w.segment high) }
        buf := []
        started := true
        segmentIndex := high
        segmentSize := (w.segment high).length
        minIndex := low
        maxIndex := high
        heightIndex := buildIndex M w.dir low high } := by
  unfold FileWAL.start
  rw [if_neg (by simp [hstopped]), hspans.findHighestSegmentIndex hnum]
  dsimp only
  rw [hspans.findLowestSegmentIndex hnum]
  rfl

omit [WalCodec M] in
/-- Writing the content of a segment again changes nothing. -/
theorem lookup_insert_segment (w : FileWAL M) (high i : Nat) :
    ((w.dir.segments.insert high (w.segment high)).lookup i).getD [] = w.segment i := by
  by_cases hi : i = high
  · subst hi
    rw [AList.lookup_insert]
    rfl
  · rw [AList.lookup_insert_ne hi]
    rfl

theorem start (h : Layout low w journal) (hfits : ∀ e ∈ journal, Fits e.2)
    (hnum : w.started = true ∨ w.segmentIndex < 100000) : Layout low w.start journal := by
  cases hstopped : w.started with
  | true =>
    rw [FileWAL.start, if_pos hstopped]
    exact h
  | false =>
  have hnum := hnum.resolve_left (by simp [hstopped])
  have hbuf := h.stopped hstopped
  have hsegment := lookup_insert_segment w w.segmentIndex
  rw [start_eq hstopped h.spans hnum]
  exact
    { legacy := h.legacy
      mem := fun i => by
        show i ∈ w.dir.segments.insert w.segmentIndex _ ↔ _ ∧ i ≤ w.segmentIndex
        rw [AList.mem_insert, h.mem]
        have := h.low_le
        omega
      closed := fun i hlow hi => by
        obtain ⟨tail, htail, heq⟩ := h.closed i hlow hi
        exact ⟨tail, htail, (hsegment i).trans heq⟩
      current := by
        have hcurrent := h.current
        rw [hbuf] at hcurrent
        exact (congrArg (· ++ []) (hsegment w.segmentIndex)).trans hcurrent
      low_le := h.low_le
      minIndex_le := le_rfl
      maxIndex_eq := rfl
      stopped := fun _ => rfl
      sorted := h.sorted
      le := h.le
      encoded := h.encoded
      index := fun height k hlookup => by
        obtain ⟨-, bytes, hbytes, m, hm, hends⟩ := marked_of_lookup hlookup
        exact ⟨(h.segment_eq hbuf hbytes).1, m, h.mem_journal_of_read hbuf hfits hbytes hm, hends⟩ }

/-! ### Search -/

/-- How the scan over segments ends. -/
theorem scanSegments_cases (height : Int) (w : FileWAL M) : ∀ list : List Nat,
    ((∀ i ∈ list, w.searchSegmentForEndHeight i height = .missing) ∧
      w.scanSegments height list = (w, .ok none)) ∨
    ∃ before i after, list = before ++ i :: after ∧
      (∀ j ∈ before, w.searchSegmentForEndHeight j height = .missing) ∧
      ((∃ e, w.searchSegmentForEndHeight i height = .failed e ∧
          w.scanSegments height list = (w, .error e)) ∨
        ∃ reader, w.searchSegmentForEndHeight i height = .found reader ∧
          w.scanSegments height list =
            ({ w with heightIndex := w.heightIndex.insert height i }, .ok (some reader)))
  | [] => .inl ⟨by simp, rfl⟩
  | i :: rest => by
    rw [scanSegments]
    cases hi : w.searchSegmentForEndHeight i height with
    | failed e => exact .inr ⟨[], i, rest, rfl, by simp, .inl ⟨e, hi, rfl⟩⟩
    | found reader => exact .inr ⟨[], i, rest, rfl, by simp, .inr ⟨reader, hi, rfl⟩⟩
    | missing =>
      dsimp only
      rcases scanSegments_cases height w rest with
        ⟨hall, heq⟩ | ⟨before, j, after, rfl, hbefore, hcases⟩
      · exact .inl ⟨List.forall_mem_cons.mpr ⟨hi, hall⟩, heq⟩
      · exact .inr ⟨i :: before, j, after, rfl, List.forall_mem_cons.mpr ⟨hi, hbefore⟩, hcases⟩

/-- A segment in which the search finds the marker holds it. -/
theorem mem_of_found (h : Layout low w journal) (hbuf : w.buf = [])
    (hfits : ∀ e ∈ journal, Fits e.2) {reader : Bytes}
    (hfound : w.searchSegmentForEndHeight i height = .found reader) :
    low ≤ i ∧ ∃ m, (i, m) ∈ journal ∧ endsHeight height m = true := by
  unfold searchSegmentForEndHeight at hfound
  split at hfound
  · cases hfound
  · rename_i bytes hbytes
    obtain ⟨before, m, hm, -, hread⟩ := Decoder.seek_found _ hfound
    have hmem : m ∈ ((decoder M).read bytes).1 := by
      rw [hread]
      exact List.mem_append_right _ (List.mem_cons_self ..)
    exact ⟨(h.segment_eq hbuf hbytes).1, m, h.mem_journal_of_read hbuf hfits hbytes hmem, hm⟩

theorem scanSegments (h : Layout low w journal) (hbuf : w.buf = [])
    (hfits : ∀ e ∈ journal, Fits e.2) (height : Int) (list : List Nat) :
    Layout low (w.scanSegments height list).1 journal := by
  rcases scanSegments_cases height w list with
    ⟨-, heq⟩ | ⟨before, i, after, -, -, ⟨e, -, heq⟩ | ⟨reader, hfound, heq⟩⟩
  · rw [heq]
    exact h
  · rw [heq]
    exact h
  · rw [heq]
    obtain ⟨hlow, hm⟩ := h.mem_of_found hbuf hfits hfound
    exact h.insertIndex hlow hm

theorem searchForEndHeight (h : Layout low w journal) (hfits : ∀ e ∈ journal, Fits e.2)
    (height : Int) : Layout low (w.searchForEndHeight height).1 journal := by
  have hscan := h.flushAndSync.scanSegments rfl hfits height
    (indices w.flushAndSync.minIndex w.flushAndSync.maxIndex)
  unfold FileWAL.searchForEndHeight
  split
  · dsimp only
    split
    · exact hscan
    · split
      · exact h.flushAndSync
      · exact h.flushAndSync
      · exact hscan
  · exact h

/-! ### Writing -/

omit [WalCodec M] in
theorem started_rotateIfFull (w : FileWAL M) : w.rotateIfFull.started = w.started := by
  unfold FileWAL.rotateIfFull
  split <;> rfl

theorem write (h : Layout low w journal) (m : M) : Layout low (w.write m).1
    (match (w.write m).2 with
      | .ok () => journal ++ [((w.write m).1.segmentIndex, m)]
      | .error _ => journal) := by
  unfold FileWAL.write
  split
  · rename_i hstarted
    split
    · exact h.rotateIfFull
    · rename_i data hdata
      exact h.rotateIfFull.append hdata ((started_rotateIfFull w).trans hstarted)
  · exact h

/-- What `WriteSync` does is `Write`, and a flush if that went well. -/
theorem writeSync_eq (w : FileWAL M) (m : M) :
    (w.writeSync m).2 = (w.write m).2 ∧
      (w.writeSync m).1 = match (w.write m).2 with
        | .ok () => (w.write m).1.flushAndSync
        | .error _ => (w.write m).1 := by
  unfold FileWAL.writeSync
  cases w.write m with
  | mk w' result =>
    cases result with
    | error e => exact ⟨rfl, rfl⟩
    | ok => exact ⟨rfl, rfl⟩

theorem writeSync (h : Layout low w journal) (m : M) : Layout low (w.writeSync m).1
    (match (w.writeSync m).2 with
      | .ok () => journal ++ [((w.writeSync m).1.segmentIndex, m)]
      | .error _ => journal) := by
  obtain ⟨hresult, hwal⟩ := writeSync_eq w m
  have hwrite := h.write m
  rw [hresult, hwal]
  cases hok : (w.write m).2 with
  | error e =>
    rw [hok] at hwrite
    exact hwrite
  | ok =>
    rw [hok] at hwrite
    exact hwrite.flushAndSync

theorem stop (h : Layout low w journal) : Layout low w.stop journal := by
  unfold FileWAL.stop
  split
  · exact { h.flushAndSync with stopped := fun _ => rfl }
  · exact h

end Layout

end Leaderberry.Wal
