import Leaderberry.Wal.Checkpoint

/-!
# Lookups with and without the index

`SearchForEndHeight` looks into the segment that the index names, and scans the segments
from the lowest on for a height that the index does not have. The index names a segment in
which the height was written or found, the last one as a rule; the scan stops at the first
one that has a marker. So a height that was ended twice is found in different places, and a
segment that cannot be read stops the scan but not the lookup.

`FileWAL.foundAt` is the place that a search returns. For every log that any calls lead to,
from any directory, the lookup with the index and the one without it return the same place
exactly if the segment of the index leads (`lookups_agree_iff`).
-/

namespace Leaderberry.Wal

open RecordStream

variable {M : Type} [WalCodec M]

/-! ## The place of a marker -/

namespace FileWAL

/-- The place that a search has returned: the segment of the reader, and what is left of
it. A search leaves its segment in the index. -/
def place (height : Int) (result : FileWAL M × Except WalError (Option Bytes)) :
    Option (Nat × Bytes) :=
  match result.2 with
  | .ok (some reader) => (result.1.heightIndex.lookup height).map fun k => (k, reader)
  | _ => none

/-- Where `SearchForEndHeight` finds the marker. -/
def foundAt (w : FileWAL M) (height : Int) : Option (Nat × Bytes) :=
  place height (w.searchForEndHeight height)

/-- The log with an index that does not have the height. -/
def forget (w : FileWAL M) (height : Int) : FileWAL M :=
  { w with heightIndex := w.heightIndex.erase height }

/-- The height is found in the same place, or not found, whether or not it is in the
index. -/
def LookupsAgree (w : FileWAL M) (height : Int) : Prop :=
  w.foundAt height = (w.forget height).foundAt height

/-- The reader meets a marker of the height in the segment. -/
def HasMarker (w : FileWAL M) (height : Int) (index : Nat) : Prop :=
  ∃ bytes, w.flushAndSync.dir.segments.lookup index = some bytes ∧
    ∃ m ∈ ((decoder M).read bytes).1, endsHeight height m = true

/-- The reader does not come to the end of the segment. -/
def Breaks (w : FileWAL M) (index : Nat) : Prop :=
  ∃ bytes, w.flushAndSync.dir.segments.lookup index = some bytes ∧
    ((decoder M).read bytes).2 ≠ none

/-- The segment leads: the reader comes through the segments before it without meeting a
marker. If it breaks off before its own marker, a scan has to break off too. -/
structure Leads (w : FileWAL M) (height : Int) (index : Nat) : Prop where
  first : w.HasMarker height index → ∀ i, w.minIndex ≤ i → i < index →
    ¬ w.HasMarker height i ∧ ¬ w.Breaks i
  broken : ¬ w.HasMarker height index → w.Breaks index →
    ∀ i, w.minIndex ≤ i → i ≤ w.maxIndex → w.HasMarker height i →
      ∃ j, w.minIndex ≤ j ∧ j < i ∧ w.Breaks j

/-- A scan finds the marker in this segment. -/
structure ScanFinds (w : FileWAL M) (height : Int) (index : Nat) (reader : Bytes) : Prop where
  low : w.minIndex ≤ index
  high : index ≤ w.maxIndex
  found : w.flushAndSync.searchSegmentForEndHeight index height = .found reader
  before : ∀ i, w.minIndex ≤ i → i < index →
    w.flushAndSync.searchSegmentForEndHeight i height = .missing

/-! ### Searching a segment -/

variable {w : FileWAL M} {height : Int} {i k : Nat} {reader : Bytes}

theorem search_found_iff :
    (∃ reader, w.flushAndSync.searchSegmentForEndHeight i height = .found reader) ↔
      w.HasMarker height i := by
  unfold searchSegmentForEndHeight HasMarker
  cases hbytes : w.flushAndSync.dir.segments.lookup i with
  | none =>
    constructor
    · rintro ⟨reader, hfound⟩
      cases hfound
    · rintro ⟨bytes, hnone, -⟩
      cases hnone
  | some bytes =>
    constructor
    · rintro ⟨reader, hfound⟩
      obtain ⟨before, m, hm, -, hread⟩ := Decoder.seek_found bytes hfound
      refine ⟨bytes, rfl, m, ?_, hm⟩
      rw [hread]
      exact List.mem_append_right _ (List.mem_cons_self ..)
    · rintro ⟨_, ⟨⟩, hmarker⟩
      exact Decoder.seek_of_exists bytes hmarker

/-- Without a marker, what counts is whether the reader comes to the end. -/
theorem search_eq_missing_iff :
    w.flushAndSync.searchSegmentForEndHeight i height = .missing ↔
      ¬ w.HasMarker height i ∧ ¬ w.Breaks i := by
  by_cases hmarker : w.HasMarker height i
  · obtain ⟨reader, hfound⟩ := search_found_iff.mpr hmarker
    rw [hfound]
    exact iff_of_false (fun h => by cases h) fun h => h.1 hmarker
  · rw [and_iff_right hmarker]
    unfold searchSegmentForEndHeight Breaks
    cases hbytes : w.flushAndSync.dir.segments.lookup i with
    | none =>
      refine iff_of_true rfl ?_
      rintro ⟨bytes, hnone, -⟩
      cases hnone
    | some bytes =>
      have hseek := Decoder.seek_of_forall (d := decoder M) (p := endsHeight height) bytes
        fun m hm => by
          by_contra hends
          exact hmarker ⟨bytes, hbytes, m, hm, by simpa using hends⟩
      dsimp only
      rw [hseek]
      cases hend : ((decoder M).read bytes).2 with
      | none =>
        refine iff_of_true rfl ?_
        rintro ⟨_, ⟨⟩, hbreaks⟩
        exact hbreaks hend
      | some e =>
        refine iff_of_false (fun h => by cases h) fun h => h ⟨bytes, rfl, ?_⟩
        rw [hend]
        exact Option.some_ne_none e

/-! ### Scanning the segments -/

omit [WalCodec M] in
theorem mem_indices {lo hi : Nat} : i ∈ indices lo hi ↔ lo ≤ i ∧ i ≤ hi := by
  rw [indices, List.mem_range'_1]
  omega

omit [WalCodec M] in
/-- The segments are scanned in order: before a segment come those with a lower number. -/
theorem mem_before_iff {lo hi : Nat} {before after : List Nat}
    (h : indices lo hi = before ++ i :: after) {j : Nat} :
    j ∈ before ↔ lo ≤ j ∧ j < i := by
  have hsorted : (before ++ i :: after).Pairwise (· < ·) := by
    rw [← h]
    exact List.pairwise_lt_range'
  obtain ⟨-, hafter, hbefore⟩ := List.pairwise_append.mp hsorted
  have hmem : ∀ j, j ∈ before ++ i :: after ↔ lo ≤ j ∧ j ≤ hi := fun j => by
    rw [← h, mem_indices]
  have hi' := (hmem i).mp (List.mem_append_right _ (List.mem_cons_self ..))
  constructor
  · intro hj
    exact ⟨((hmem j).mp (List.mem_append_left _ hj)).1, hbefore j hj i (List.mem_cons_self ..)⟩
  · rintro ⟨hlo, hlt⟩
    rcases List.mem_append.mp ((hmem j).mpr ⟨hlo, by omega⟩) with hj | hj
    · exact hj
    · rcases List.mem_cons.mp hj with rfl | hj
      · exact absurd hlt (lt_irrefl _)
      · exact absurd ((List.pairwise_cons.mp hafter).1 j hj) (by omega)

/-- Two segments at which the scan stops are one. -/
theorem ScanFinds.eq_of_stops {k i : Nat} {reader : Bytes} (h : w.ScanFinds height k reader)
    (hi : w.minIndex ≤ i) (hstops : w.flushAndSync.searchSegmentForEndHeight i height ≠ .missing)
    (hbefore : ∀ j, w.minIndex ≤ j → j < i →
      w.flushAndSync.searchSegmentForEndHeight j height = .missing) : k = i := by
  rcases lt_trichotomy k i with hlt | heq | hlt
  · have hmissing := hbefore k h.low hlt
    rw [h.found] at hmissing
    cases hmissing
  · exact heq
  · exact absurd (h.before i hi hlt) hstops

/-- The scan returns the place where it stops. -/
theorem place_scanSegments :
    place height (w.flushAndSync.scanSegments height (indices w.minIndex w.maxIndex)) =
        some (k, reader) ↔
      w.ScanFinds height k reader := by
  rcases Layout.scanSegments_cases height w.flushAndSync (indices w.minIndex w.maxIndex) with
    ⟨hall, heq⟩ | ⟨before, i, after, hsplit, hbefore, hstop⟩
  · rw [heq]
    refine iff_of_false (fun h => by cases h) fun h => ?_
    have hmissing := hall k (mem_indices.mpr ⟨h.low, h.high⟩)
    rw [h.found] at hmissing
    cases hmissing
  · have hi := mem_indices.mp (hsplit ▸ List.mem_append_right before (List.mem_cons_self (a := i)))
    have hskipped : ∀ j, w.minIndex ≤ j → j < i →
        w.flushAndSync.searchSegmentForEndHeight j height = .missing :=
      fun j hlow hlt => hbefore j ((mem_before_iff hsplit).mpr ⟨hlow, hlt⟩)
    rcases hstop with ⟨e, hfailed, heq⟩ | ⟨found, hfound, heq⟩
    · rw [heq]
      refine iff_of_false (fun h => by cases h) fun h => ?_
      obtain rfl := h.eq_of_stops hi.1 (by rw [hfailed]; exact fun h => by cases h) hskipped
      have hfound := h.found
      rw [hfailed] at hfound
      cases hfound
    · have hplace : place height
          (w.flushAndSync.scanSegments height (indices w.minIndex w.maxIndex)) =
            some (i, found) := by
        rw [heq, place]
        dsimp only
        rw [AList.lookup_insert]
        rfl
      rw [hplace]
      constructor
      · rintro ⟨⟩
        exact ⟨hi.1, hi.2, hfound, hskipped⟩
      · intro h
        obtain rfl := h.eq_of_stops hi.1 (by rw [hfound]; exact fun h => by cases h) hskipped
        have hsame := h.found
        rw [hfound] at hsame
        cases hsame
        rfl

/-- A scan that finds a marker leaves its segment in the index. -/
theorem lookup_scanSegments {list : List Nat}
    (hok : (w.scanSegments height list).2 = .ok (some reader)) :
    ∃ k, (w.scanSegments height list).1.heightIndex.lookup height = some k := by
  rcases Layout.scanSegments_cases height w list with
    ⟨-, heq⟩ | ⟨-, i, -, -, -, ⟨e, -, heq⟩ | ⟨found, -, heq⟩⟩
  · rw [heq] at hok
    cases hok
  · rw [heq] at hok
    cases hok
  · rw [heq]
    exact ⟨i, AList.lookup_insert _⟩

/-- So does a search, by the index or by the scan. -/
theorem lookup_searchForEndHeight (hok : (w.searchForEndHeight height).2 = .ok (some reader)) :
    ∃ k, (w.searchForEndHeight height).1.heightIndex.lookup height = some k := by
  unfold searchForEndHeight at hok ⊢
  split at hok
  · rename_i hstarted
    rw [if_pos hstarted]
    dsimp only at hok ⊢
    split at hok
    · exact lookup_scanSegments hok
    · rename_i k hk
      split at hok
      · cases hok
      · exact ⟨k, hk⟩
      · -- the entry is stale: the search goes on with the scan
        exact lookup_scanSegments hok
  · cases hok

/-- A place has the reader that the search returned. -/
theorem exists_foundAt_iff :
    (∃ k, w.foundAt height = some (k, reader)) ↔
      (w.searchForEndHeight height).2 = .ok (some reader) := by
  unfold foundAt place
  constructor
  · rintro ⟨k, hplace⟩
    split at hplace
    · rename_i found hok
      obtain ⟨i, -, heq⟩ := Option.map_eq_some_iff.mp hplace
      cases heq
      exact hok
    · cases hplace
  · intro hok
    obtain ⟨k, hk⟩ := lookup_searchForEndHeight hok
    rw [hok]
    dsimp only
    rw [hk]
    exact ⟨k, rfl⟩

section started

variable (hstarted : w.started = true)
include hstarted

/-- A height that the index does not have is scanned for. -/
theorem foundAt_of_none (hindex : w.heightIndex.lookup height = none) :
    w.foundAt height =
      place height (w.flushAndSync.scanSegments height (indices w.minIndex w.maxIndex)) := by
  have hflushed : w.flushAndSync.heightIndex.lookup height = none := hindex
  rw [foundAt, searchForEndHeight, if_pos hstarted]
  dsimp only
  rw [hflushed]
  rfl

theorem foundAt_forget (height : Int) :
    (w.forget height).foundAt height =
      place height (w.flushAndSync.scanSegments height (indices w.minIndex w.maxIndex)) := by
  have hnone : (w.forget height).heightIndex.lookup height = none := AList.lookup_erase ..
  rw [foundAt_of_none (w := w.forget height) hstarted hnone]
  refine Option.ext fun (k, reader) => ?_
  -- the two scans read the same segments; only the rest of their indices differs
  rw [place_scanSegments (w := w.forget height), place_scanSegments (w := w)]
  exact ⟨fun h => ⟨h.low, h.high, h.found, h.before⟩, fun h => ⟨h.low, h.high, h.found, h.before⟩⟩

variable {k : Nat} (hindex : w.heightIndex.lookup height = some k)
include hindex

/-- A height that the index has is looked up in the segment. -/
theorem foundAt_of_found {reader : Bytes}
    (hfound : w.flushAndSync.searchSegmentForEndHeight k height = .found reader) :
    w.foundAt height = some (k, reader) := by
  have hflushed : w.flushAndSync.heightIndex.lookup height = some k := hindex
  rw [foundAt, searchForEndHeight, if_pos hstarted]
  dsimp only
  rw [hflushed]
  dsimp only
  rw [hfound, place]
  dsimp only
  rw [hflushed]
  rfl

theorem foundAt_of_failed {e : WalError}
    (hfailed : w.flushAndSync.searchSegmentForEndHeight k height = .failed e) :
    w.foundAt height = none := by
  have hflushed : w.flushAndSync.heightIndex.lookup height = some k := hindex
  rw [foundAt, searchForEndHeight, if_pos hstarted]
  dsimp only
  rw [hflushed]
  dsimp only
  rw [hfailed]
  rfl

/-- An entry that leads nowhere is as good as none. -/
theorem foundAt_of_missing
    (hmissing : w.flushAndSync.searchSegmentForEndHeight k height = .missing) :
    w.foundAt height =
      place height (w.flushAndSync.scanSegments height (indices w.minIndex w.maxIndex)) := by
  have hflushed : w.flushAndSync.heightIndex.lookup height = some k := hindex
  rw [foundAt, searchForEndHeight, if_pos hstarted]
  dsimp only
  rw [hflushed]
  dsimp only
  rw [hmissing]
  rfl

end started

/-! ## Agreement -/

/-- The scan finds nothing exactly if it breaks off before every marker. -/
theorem forall_not_scanFinds_iff :
    (∀ k reader, ¬ w.ScanFinds height k reader) ↔
      ∀ i, w.minIndex ≤ i → i ≤ w.maxIndex → w.HasMarker height i →
        ∃ j, w.minIndex ≤ j ∧ j < i ∧ w.Breaks j := by
  constructor
  · intro hnone i hlow hhigh hmarker
    -- the first segment that the scan does not pass has no marker, or it would be found
    have hex : ∃ j, w.minIndex ≤ j ∧ ¬ (¬ w.HasMarker height j ∧ ¬ w.Breaks j) :=
      ⟨i, hlow, fun h => h.1 hmarker⟩
    classical
    obtain ⟨hj, hstops⟩ := Nat.find_spec hex
    have hle : Nat.find hex ≤ i := Nat.find_min' hex ⟨hlow, fun h => h.1 hmarker⟩
    have hunmarked : ¬ w.HasMarker height (Nat.find hex) := by
      intro hmarker'
      obtain ⟨reader, hfound⟩ := search_found_iff.mpr hmarker'
      refine hnone (Nat.find hex) reader ⟨hj, hle.trans hhigh, hfound, fun j hlow hlt => ?_⟩
      rw [search_eq_missing_iff]
      by_contra hstops
      exact Nat.find_min hex hlt ⟨hlow, hstops⟩
    refine ⟨Nat.find hex, hj, lt_of_le_of_ne hle ?_, ?_⟩
    · intro heq
      rw [heq] at hunmarked
      exact hunmarked hmarker
    · by_contra hpasses
      exact hstops ⟨hunmarked, hpasses⟩
  · intro hbreaks k reader hscan
    obtain ⟨j, hlow, hlt, hj⟩ :=
      hbreaks k hscan.low hscan.high (search_found_iff.mp ⟨reader, hscan.found⟩)
    exact (search_eq_missing_iff.mp (hscan.before j hlow hlt)).2 hj

/-- The index names segments of the group. -/
structure Ranged (w : FileWAL M) : Prop where
  current : w.maxIndex = w.segmentIndex
  min_le : w.minIndex ≤ w.maxIndex
  index : ∀ height k, w.heightIndex.lookup height = some k → w.minIndex ≤ k ∧ k ≤ w.maxIndex

/-- A stopped log finds nothing. -/
theorem foundAt_of_stopped (hstopped : w.started ≠ true) : w.foundAt height = none := by
  rw [foundAt, searchForEndHeight, if_neg hstopped]
  rfl

/-- A search that fails on a segment saw no marker, and did not come to the end. -/
theorem unmarked_of_failed {e : WalError}
    (hfailed : w.flushAndSync.searchSegmentForEndHeight k height = .failed e) :
    ¬ w.HasMarker height k ∧ w.Breaks k := by
  have hmarker : ¬ w.HasMarker height k := by
    intro hmarker
    obtain ⟨reader, hfound⟩ := search_found_iff.mpr hmarker
    rw [hfailed] at hfound
    cases hfound
  refine ⟨hmarker, ?_⟩
  by_contra hpasses
  have hmissing := search_eq_missing_iff.mpr ⟨hmarker, hpasses⟩
  rw [hfailed] at hmissing
  cases hmissing

/-- The segment that the index names, and what the scan makes of the height. -/
theorem foundAt_eq_scan_iff (hstarted : w.started = true)
    (hindex : w.heightIndex.lookup height = some k) (hlow : w.minIndex ≤ k)
    (hhigh : k ≤ w.maxIndex) :
    w.foundAt height =
        place height (w.flushAndSync.scanSegments height (indices w.minIndex w.maxIndex)) ↔
      w.Leads height k := by
  cases hsearch : w.flushAndSync.searchSegmentForEndHeight k height with
  | found reader =>
    -- the scan has to come to this segment
    have hmarker : w.HasMarker height k := search_found_iff.mp ⟨reader, hsearch⟩
    rw [foundAt_of_found hstarted hindex hsearch, eq_comm, place_scanSegments]
    constructor
    · intro hscan
      exact ⟨fun _ i hi hlt => search_eq_missing_iff.mp (hscan.before i hi hlt),
        fun hnot => absurd hmarker hnot⟩
    · intro hk
      exact ⟨hlow, hhigh, hsearch, fun i hi hlt =>
        search_eq_missing_iff.mpr (hk.first hmarker i hi hlt)⟩
  | failed e =>
    -- the scan has to fail too, here or before
    obtain ⟨hmarker, hbreaks⟩ := unmarked_of_failed hsearch
    rw [foundAt_of_failed hstarted hindex hsearch, eq_comm, Option.eq_none_iff_forall_ne_some]
    constructor
    · intro hnone
      refine ⟨fun h => absurd h hmarker, fun _ _ => forall_not_scanFinds_iff.mp ?_⟩
      intro i reader hscan
      exact hnone (i, reader) (place_scanSegments.mpr hscan)
    · rintro hk ⟨i, reader⟩ hplace
      exact forall_not_scanFinds_iff.mpr (hk.broken hmarker hbreaks) i reader
        (place_scanSegments.mp hplace)
  | missing =>
    obtain ⟨hmarker, hpasses⟩ := search_eq_missing_iff.mp hsearch
    exact iff_of_true (foundAt_of_missing hstarted hindex hsearch)
      ⟨fun h => absurd h hmarker, fun _ h => absurd h hpasses⟩

theorem Ranged.lookupsAgree_iff (h : w.Ranged) :
    w.LookupsAgree height ↔
      (w.started = true → ∀ k, w.heightIndex.lookup height = some k → w.Leads height k) := by
  by_cases hstarted : w.started = true
  swap
  · refine iff_of_true ?_ fun h => absurd h hstarted
    rw [LookupsAgree, foundAt_of_stopped hstarted,
      foundAt_of_stopped (w := w.forget height) hstarted]
  rw [LookupsAgree, foundAt_forget hstarted]
  cases hindex : w.heightIndex.lookup height with
  | none => exact iff_of_true (foundAt_of_none hstarted hindex) fun _ k h => by cases h
  | some k =>
    obtain ⟨hlow, hhigh⟩ := h.index height k hindex
    rw [foundAt_eq_scan_iff hstarted hindex hlow hhigh]
    constructor
    · rintro hk - i ⟨⟩
      exact hk
    · intro hall
      exact hall hstarted k rfl

/-! ## Runs -/

omit [WalCodec M] in
/-- `Start` finds no lower segment above the highest, whatever numbers it reads. -/
theorem findLowest_le_findHighest (dir : Dir) :
    dir.findHighestSegmentIndex.1.findLowestSegmentIndex ≤ dir.findHighestSegmentIndex.2 := by
  unfold Dir.findHighestSegmentIndex
  cases dir.legacy with
  | some bytes =>
    -- the legacy log has become segment 0
    have hzero : 0 ∈ Dir.scan ⟨none, dir.segments.insert 0 bytes⟩ :=
      List.mem_map.mpr ⟨0, AList.mem_keys.mp ((AList.mem_insert _).mpr (.inl rfl)), rfl⟩
    show (Dir.scan ⟨none, dir.segments.insert 0 bytes⟩).min?.getD 0 ≤ 0
    cases hmin : (Dir.scan ⟨none, dir.segments.insert 0 bytes⟩).min? with
    | none => exact le_rfl
    | some low => exact (List.min?_eq_some_iff.mp hmin).2 0 hzero
  | none =>
    show dir.scan.min?.getD 0 ≤ dir.scan.max?.getD 0
    cases hmin : dir.scan.min? with
    | none => exact Nat.zero_le _
    | some low =>
      have hmem := (List.min?_eq_some_iff.mp hmin).1
      cases hmax : dir.scan.max? with
      | none =>
        rw [List.max?_eq_none_iff.mp hmax] at hmem
        cases hmem
      | some high => exact (List.max?_eq_some_iff.mp hmax).2 low hmem

namespace Ranged

section

omit [WalCodec M]

theorem newFileWALWithOptions (dir : Dir) (maxSegSize : Int) :
    (FileWAL.newFileWALWithOptions dir maxSegSize : FileWAL M).Ranged where
  current := rfl
  min_le := le_rfl
  index := fun height k h => by cases h

theorem flushAndSync (h : w.Ranged) : w.flushAndSync.Ranged :=
  ⟨h.current, h.min_le, h.index⟩

theorem rotate (h : w.Ranged) : w.rotate.Ranged where
  current := rfl
  min_le := by
    show w.minIndex ≤ w.segmentIndex + 1
    have := h.current ▸ h.min_le
    omega
  index := fun height k hlookup => by
    obtain ⟨hlow, hhigh⟩ := h.index height k hlookup
    refine ⟨hlow, ?_⟩
    show k ≤ w.segmentIndex + 1
    have := h.current
    omega

theorem rotateIfFull (h : w.Ranged) : w.rotateIfFull.Ranged := by
  unfold FileWAL.rotateIfFull
  split
  · exact h.rotate
  · exact h

/-- Another entry for a segment of the group. -/
theorem insertIndex (h : w.Ranged) (height : Int) {k : Nat} (hlow : w.minIndex ≤ k)
    (hhigh : k ≤ w.maxIndex) :
    Ranged (M := M) { w with heightIndex := w.heightIndex.insert height k } where
  current := h.current
  min_le := h.min_le
  index := fun height' k' hlookup => by
    by_cases heq : height' = height
    · subst heq
      rw [AList.lookup_insert] at hlookup
      cases hlookup
      exact ⟨hlow, hhigh⟩
    · rw [AList.lookup_insert_ne heq] at hlookup
      exact h.index height' k' hlookup

end

variable (h : w.Ranged)

include h

theorem append (m : M) (data : Bytes) : (w.append m data).Ranged where
  current := h.current
  min_le := h.min_le
  index := fun height k hlookup => by
    have hinsert := h.insertIndex (WalCodec.height m) (h.current ▸ h.min_le) h.current.ge
    unfold FileWAL.append at hlookup
    dsimp only at hlookup
    split at hlookup
    · exact hinsert.index height k ((Layout.lookup_foldl_erase _ _).mp hlookup).1
    · exact h.index height k hlookup

theorem write (m : M) : (w.write m).1.Ranged := by
  unfold FileWAL.write
  split
  · split
    · exact h.rotateIfFull
    · exact h.rotateIfFull.append m _
  · exact h

theorem writeSync (m : M) : (w.writeSync m).1.Ranged := by
  rw [(Layout.writeSync_eq w m).2]
  split
  · exact (h.write m).flushAndSync
  · exact h.write m

omit [WalCodec M] in
theorem stop : w.stop.Ranged := by
  unfold FileWAL.stop
  split
  · exact ⟨h.current, h.min_le, h.index⟩
  · exact h

omit [WalCodec M] in
theorem flush : w.flush.1.Ranged := by
  unfold FileWAL.flush
  split
  · exact h.flushAndSync
  · exact h

theorem searchForEndHeight (height : Int) : (w.searchForEndHeight height).1.Ranged := by
  have hscan : (w.flushAndSync.scanSegments height
      (indices w.flushAndSync.minIndex w.flushAndSync.maxIndex)).1.Ranged := by
    rcases Layout.scanSegments_cases height w.flushAndSync
        (indices w.flushAndSync.minIndex w.flushAndSync.maxIndex) with
      ⟨-, heq⟩ | ⟨before, i, after, hsplit, -, ⟨e, -, heq⟩ | ⟨reader, -, heq⟩⟩
    · rw [heq]
      exact h.flushAndSync
    · rw [heq]
      exact h.flushAndSync
    · rw [heq]
      have hi := mem_indices.mp
        (hsplit ▸ List.mem_append_right before (List.mem_cons_self (a := i)))
      exact h.flushAndSync.insertIndex height hi.1 hi.2
  unfold FileWAL.searchForEndHeight
  split
  · dsimp only
    split
    · exact hscan
    · split
      · exact h.flushAndSync
      · exact h.flushAndSync
      · exact hscan
  · exact h

/-- A checkpoint takes the entries of the segments away that it deletes. -/
theorem checkpoint (removes : Nat → Bool) (height : Int) :
    (w.checkpoint removes height).1.Ranged := by
  by_cases hstarted : w.started = true
  swap
  · rw [FileWAL.checkpoint, if_neg hstarted]
    exact h
  have hremoval := Removal.checkpoint hstarted removes height
  have hmax := hremoval.maxIndex
  have hkept : ∀ k, w.minIndex ≤ k → k ∉ w.removed removes height →
      (w.checkpoint removes height).1.minIndex ≤ k := by
    intro k hlow hk
    by_contra hlt
    exact hk (hremoval.minIndex.2 k hlow (not_le.mp hlt))
  constructor
  · rw [hmax, hremoval.segmentIndex]
    exact h.current
  · rw [hmax]
    refine hkept _ h.min_le fun hmem => ?_
    obtain ⟨-, hlt, -⟩ := mem_removed.mp hmem
    exact lt_irrefl _ hlt
  · intro height k hlookup
    obtain ⟨hbefore, hk⟩ := (hremoval.index height k).mp hlookup
    obtain ⟨hlow, hhigh⟩ := h.index height k hbefore
    exact ⟨hkept k hlow hk, hmax ▸ hhigh⟩

/-- `Start` indexes the segments of the group, whatever numbers it reads. -/
theorem start : w.start.Ranged := by
  by_cases hstarted : w.started = true
  · rw [FileWAL.start, if_pos hstarted]
    exact h
  rw [FileWAL.start, if_neg hstarted]
  constructor
  · rfl
  · exact findLowest_le_findHighest w.dir
  · intro height k hlookup
    exact mem_indices.mp (Layout.marked_of_lookup hlookup).1

end Ranged

end FileWAL

namespace Log

variable (M) in
/-- A log that is not started yet, on a directory with any content. -/
def opened (dir : Dir) (maxSegSize : Int) : Log M :=
  ⟨FileWAL.newFileWALWithOptions dir maxSegSize, []⟩

theorem step_ranged {l : Log M} (h : l.wal.Ranged) (op : Op M) : (l.step op).wal.Ranged := by
  cases op with
  | start => exact h.start
  | stop => exact h.stop
  | flush => exact h.flush
  | write m =>
    show (l.accept m (l.wal.write m)).wal.Ranged
    rw [wal_accept]
    exact h.write m
  | writeSync m =>
    show (l.accept m (l.wal.writeSync m)).wal.Ranged
    rw [wal_accept]
    exact h.writeSync m
  | search height => exact h.searchForEndHeight height
  | checkpoint removes height => exact h.checkpoint removes height

theorem run_ranged : ∀ (ops : List (Op M)) {l : Log M}, l.wal.Ranged → (l.run ops).wal.Ranged
  | [], _, h => h
  | op :: ops, _, h => run_ranged ops (step_ranged h op)

end Log

theorem Layout.ranged {low : Nat} {w : FileWAL M} {journal : List (Nat × M)}
    (h : Layout low w journal) : w.Ranged where
  current := h.maxIndex_eq
  min_le := by
    rw [h.maxIndex_eq]
    exact h.minIndex_le.trans h.low_le
  index := fun height k hlookup => by
    obtain ⟨hlow, m, hm, -⟩ := h.index height k hlookup
    rw [h.maxIndex_eq]
    exact ⟨h.minIndex_le.trans hlow, h.le (k, m) hm⟩

/-! ## Any log -/

/-- **Lookups with and without the index.** For every log that any calls lead to, on a
directory with any content, and every height: the search returns the same place, or no
place, whether or not the height is in the index, exactly if the segment that the index
names leads. -/
theorem lookups_agree_iff (dir : Dir) (maxSegSize : Int) (ops : List (Op M)) (height : Int) :
    ((Log.opened M dir maxSegSize).run ops).wal.LookupsAgree height ↔
      (((Log.opened M dir maxSegSize).run ops).wal.started = true →
        ∀ k, ((Log.opened M dir maxSegSize).run ops).wal.heightIndex.lookup height = some k →
          ((Log.opened M dir maxSegSize).run ops).wal.Leads height k) :=
  (Log.run_ranged ops (FileWAL.Ranged.newFileWALWithOptions dir maxSegSize)).lookupsAgree_iff

section logs

attribute [local instance] markCodec

/-- A log with segments of two records, in which height 1 is ended again after a
restart. -/
def endedTwice : Log Mark :=
  (Log.opened Mark ⟨none, ∅⟩ 20).run
    [.start, .writeSync ⟨1, true⟩, .writeSync ⟨2, false⟩, .stop, .start, .writeSync ⟨1, true⟩]

/-- The index leads to the second marker, at the end of the log. The scan leads to the
first one, which a message of height 2 follows. -/
theorem lookups_disagree :
    endedTwice.journal = [(0, ⟨1, true⟩), (0, ⟨2, false⟩), (1, ⟨1, true⟩)] ∧
    endedTwice.wal.foundAt 1 = some (1, []) ∧
    (endedTwice.wal.forget 1).foundAt 1 = some (0, record (⟨2, false⟩ : Mark)) ∧
    ¬ endedTwice.wal.LookupsAgree 1 := by
  have hindexed : endedTwice.wal.foundAt 1 = some (1, []) := by decide +kernel
  have hscanned : (endedTwice.wal.forget 1).foundAt 1 =
      some (0, record (⟨2, false⟩ : Mark)) := by decide +kernel
  refine ⟨by decide +kernel, hindexed, hscanned, ?_⟩
  rw [FileWAL.LookupsAgree, hindexed, hscanned]
  rintro ⟨⟩

end logs

end Leaderberry.Wal
