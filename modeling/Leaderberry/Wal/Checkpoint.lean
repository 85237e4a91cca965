import Mathlib.Data.List.TakeWhile
import Leaderberry.Wal.Search

/-!
# What a checkpoint keeps

`Checkpoint(h)` deletes the lowest segments as long as all their heights are at most `h`
(`Deletes`). No message of a greater height is lost, and no marker of a greater height
either. The marker of height `h` itself can go: it stays exactly if one of its copies is in
a segment that is not deleted (`Layout.finds_checkpoint_iff`).
-/

namespace Leaderberry.Wal

open RecordStream FileWAL

variable {M : Type} [WalCodec M]

namespace FileWAL

/-- `SearchForEndHeight` finds a marker. -/
def Finds (w : FileWAL M) (height : Int) : Prop :=
  ∃ reader, (w.searchForEndHeight height).2 = .ok (some reader)

/-- `Checkpoint` deletes the segment: it is not the current one, and it and all segments
before it can be deleted and removed. -/
def Deletes (w : FileWAL M) (removes : Nat → Bool) (height : Int) (index : Nat) : Prop :=
  w.minIndex ≤ index ∧ index < w.maxIndex ∧ ∀ j, w.minIndex ≤ j → j ≤ index →
    w.canDeleteSegment j height = .ok true ∧ removes j = true

/-- What is deleted. -/
def removed (w : FileWAL M) (removes : Nat → Bool) (height : Int) : List Nat :=
  (w.segmentsToDelete height).takeWhile removes

theorem Finds.started {w : FileWAL M} {height : Int} (h : w.Finds height) : w.started = true := by
  obtain ⟨reader, hok⟩ := h
  by_contra hstopped
  rw [searchForEndHeight, if_neg hstopped] at hok
  cases hok

end FileWAL

omit [WalCodec M] in
theorem mem_takeWhile_range' {p : Nat → Bool} {i : Nat} : ∀ n a : Nat,
    i ∈ (List.range' a n).takeWhile p ↔
      a ≤ i ∧ i < a + n ∧ ∀ j, a ≤ j → j ≤ i → p j = true
  | 0, a => by
    refine iff_of_false (by simp) ?_
    rintro ⟨hle, hlt, -⟩
    omega
  | n + 1, a => by
    rw [List.range'_succ, List.takeWhile_cons]
    split
    · rename_i hp
      rw [List.mem_cons, mem_takeWhile_range' n (a + 1)]
      constructor
      · rintro (rfl | ⟨hle, hlt, hall⟩)
        · exact ⟨le_rfl, by omega, fun j hj hji => by rw [le_antisymm hji hj]; exact hp⟩
        · refine ⟨by omega, by omega, fun j hj hji => ?_⟩
          rcases hj.eq_or_lt with rfl | hj
          · exact hp
          · exact hall j hj hji
      · rintro ⟨hle, hlt, hall⟩
        rcases hle.eq_or_lt with rfl | hle
        · exact .inl rfl
        · exact .inr ⟨hle, by omega, fun j hj hji => hall j (by omega) hji⟩
    · rename_i hp
      refine iff_of_false List.not_mem_nil ?_
      rintro ⟨hle, -, hall⟩
      exact hp (hall a le_rfl hle)

theorem mem_removed {w : FileWAL M} {removes : Nat → Bool} {height : Int} {i : Nat} :
    i ∈ w.removed removes height ↔ w.Deletes removes height i := by
  unfold FileWAL.removed FileWAL.segmentsToDelete FileWAL.Deletes
  rw [List.takeWhile_takeWhile, mem_takeWhile_range']
  constructor
  · rintro ⟨hle, hlt, hall⟩
    refine ⟨hle, by omega, fun j hj hji => ?_⟩
    simpa [and_comm] using hall j hj hji
  · rintro ⟨hle, hlt, hall⟩
    refine ⟨hle, by omega, fun j hj hji => ?_⟩
    simpa [and_comm] using hall j hj hji

/-! ## Removing segments -/

/-- A log without some of its segments. -/
structure Removal (list : List Nat) (w w' : FileWAL M) : Prop where
  lookup : ∀ i, w'.dir.segments.lookup i = if i ∈ list then none else w.dir.segments.lookup i
  index : ∀ g k, w'.heightIndex.lookup g = some k ↔ w.heightIndex.lookup g = some k ∧ k ∉ list
  started : w'.started = w.started
  buf : w'.buf = w.buf
  segmentIndex : w'.segmentIndex = w.segmentIndex
  maxIndex : w'.maxIndex = w.maxIndex
  minIndex : w.minIndex ≤ w'.minIndex ∧ ∀ i, w.minIndex ≤ i → i < w'.minIndex → i ∈ list

namespace Removal

variable {list : List Nat} {w w' w'' : FileWAL M} {height : Int}

section

omit [WalCodec M]

theorem refl (w : FileWAL M) : Removal [] w w where
  lookup := fun i => by simp
  index := fun g k => by simp
  started := rfl
  buf := rfl
  segmentIndex := rfl
  maxIndex := rfl
  minIndex := ⟨le_rfl, fun i hle hlt => absurd hlt (not_lt.mpr hle)⟩

theorem cons {index : Nat} (h : Removal list (w.deleteSegment index) w') :
    Removal (index :: list) w w' where
  lookup := fun i => by
    rw [h.lookup]
    show (if i ∈ list then none else (w.dir.segments.erase index).lookup i) = _
    by_cases hi : i = index
    · subst hi
      rw [AList.lookup_erase]
      simp
    · rw [AList.lookup_erase_ne hi]
      simp [hi]
  index := fun g k => by
    rw [h.index, Layout.lookup_deleteSegment, List.mem_cons, not_or, and_assoc]
  started := h.started
  buf := h.buf
  segmentIndex := h.segmentIndex
  maxIndex := h.maxIndex
  minIndex := ⟨h.minIndex.1, fun i hle hlt => List.mem_cons_of_mem _ (h.minIndex.2 i hle hlt)⟩

/-- The deletion loop removes segments until a removal fails. -/
theorem deleteSegments (removes : Nat → Bool) : ∀ (list : List Nat) (w : FileWAL M),
    Removal (list.takeWhile removes) w (FileWAL.deleteSegments removes list w).1 ∧
      ((FileWAL.deleteSegments removes list w).2 = .ok () → list.takeWhile removes = list) ∧
      (FileWAL.deleteSegments removes list w).1.minIndex = w.minIndex
  | [], w => ⟨refl w, fun _ => rfl, rfl⟩
  | index :: list, w => by
    rw [FileWAL.deleteSegments, List.takeWhile_cons]
    split
    · obtain ⟨hremoval, hok, hmin⟩ := deleteSegments removes list (w.deleteSegment index)
      exact ⟨hremoval.cons, fun h => by rw [hok h], hmin⟩
    · exact ⟨refl w, fun h => (by cases h), rfl⟩

end

theorem checkpoint (hstarted : w.started = true) (removes : Nat → Bool) (height : Int) :
    Removal (w.removed removes height) w (w.checkpoint removes height).1 := by
  obtain ⟨hremoval, hok, hmin⟩ := deleteSegments removes (w.segmentsToDelete height) w
  unfold FileWAL.checkpoint FileWAL.removed
  rw [if_pos hstarted]
  dsimp only
  cases hdelete : FileWAL.deleteSegments removes (w.segmentsToDelete height) w with
  | mk w₁ result =>
    rw [hdelete] at hremoval hok hmin
    cases result with
    | error e => exact hremoval
    | ok =>
      dsimp only
      split
      · exact hremoval
      · -- All segments up to the new `MinIndex` are removed.
        rename_i index hlast
        have hindex := List.mem_of_getLast? hlast
        rw [hok rfl] at hremoval ⊢
        unfold FileWAL.segmentsToDelete at hindex
        obtain ⟨hle, hlt, hall⟩ := (mem_takeWhile_range' _ _).mp hindex
        refine { hremoval with minIndex := ⟨Nat.le_succ_of_le hle, fun i hi hil => ?_⟩ }
        have hil : i < index + 1 := hil
        exact (mem_takeWhile_range' _ _).mpr
          ⟨hi, by omega, fun j hj hji => hall j hj (by omega)⟩

/-- Segments that are not removed are searched as before. -/
theorem search_eq (h : Removal list w w') (hcurrent : w.segmentIndex ∉ list) (i : Nat) :
    w'.flushAndSync.searchSegmentForEndHeight i height =
      if i ∈ list then .missing else w.flushAndSync.searchSegmentForEndHeight i height := by
  have hlookup : w'.flushAndSync.dir.segments.lookup i =
      if i ∈ list then none else w.flushAndSync.dir.segments.lookup i := by
    unfold FileWAL.flushAndSync FileWAL.segment
    rw [h.segmentIndex, h.buf, h.lookup w.segmentIndex, if_neg hcurrent]
    by_cases hi : i = w.segmentIndex
    · subst hi
      rw [if_neg hcurrent, AList.lookup_insert, AList.lookup_insert]
    · rw [AList.lookup_insert_ne hi, AList.lookup_insert_ne hi, h.lookup]
  unfold searchSegmentForEndHeight
  rw [hlookup]
  split_ifs <;> rfl

/-- A marker is still found if there was none in the segments that are removed. -/
theorem finds (h : Removal list w w') (hcurrent : w.segmentIndex ∉ list)
    (hle : w'.minIndex ≤ w'.maxIndex)
    (hnone : ∀ i ∈ list, ∀ r, w.flushAndSync.searchSegmentForEndHeight i height ≠ .found r)
    (hfinds : w.Finds height) : w'.Finds height := by
  have hstarted := hfinds.started
  obtain ⟨reader, hok⟩ := hfinds
  have hkept : ∀ k, w.flushAndSync.searchSegmentForEndHeight k height = .found reader →
      k ∉ list ∧ w'.flushAndSync.searchSegmentForEndHeight k height = .found reader := by
    intro k hfound
    have hk : k ∉ list := fun hk => hnone k hk reader hfound
    rw [h.search_eq hcurrent, if_neg hk]
    exact ⟨hk, hfound⟩
  have hskipped : ∀ k, w.flushAndSync.searchSegmentForEndHeight k height = .missing →
      w'.flushAndSync.searchSegmentForEndHeight k height = .missing := by
    intro k hmissing
    rw [h.search_eq hcurrent]
    split_ifs
    · rfl
    · exact hmissing
  have hmin := h.minIndex
  have hmax := h.maxIndex
  rw [Layout.searchForEndHeight_found_iff hstarted (by omega)] at hok
  refine ⟨reader, (Layout.searchForEndHeight_found_iff (h.started.trans hstarted) hle).mpr ?_⟩
  rcases hok with ⟨k, hindex, hfound⟩ | ⟨hmissing, k, hlow, hhigh, hfound, hscan⟩
  · obtain ⟨hk, hfound'⟩ := hkept k hfound
    exact .inl ⟨k, (h.index _ _).mpr ⟨hindex, hk⟩, hfound'⟩
  · obtain ⟨hk, hfound'⟩ := hkept k hfound
    refine .inr ⟨fun i hi => hskipped i (hmissing i ((h.index _ _).mp hi).1), k, ?_,
      hmax ▸ hhigh, hfound', fun i hi hik => hskipped i (hscan i (hmin.1.trans hi) hik)⟩
    by_contra hlt
    exact hk (hmin.2 k hlow (not_le.mp hlt))

end Removal

/-! ## Checkpoints of a laid out log -/

omit [WalCodec M] in
theorem foldl_max_le {b : Int} : ∀ (l : List Int) (a : Int),
    l.foldl max a ≤ b → a ≤ b ∧ ∀ x ∈ l, x ≤ b
  | [], _, h => ⟨h, nofun⟩
  | y :: l, a, h => by
    obtain ⟨hstart, hrest⟩ := foldl_max_le l (max a y) h
    exact ⟨(le_max_left a y).trans hstart,
      List.forall_mem_cons.mpr ⟨(le_max_right a y).trans hstart, hrest⟩⟩

namespace Layout

variable {low : Nat} {w : FileWAL M} {journal : List (Nat × M)} {height : Int}
  {removes : Nat → Bool}

variable (h : Layout low w journal)

include h

/-- A segment that can be deleted has no message above the checkpoint. -/
theorem height_le_of_canDelete (hfits : ∀ e ∈ journal, Fits e.2) {i : Nat} (hi : i ≠ w.segmentIndex)
    (hcan : w.canDeleteSegment i height = .ok true) :
    ∀ m ∈ logOf journal i, WalCodec.height m ≤ height := by
  unfold canDeleteSegment at hcan
  cases hbytes : w.dir.segments.lookup i with
  | none =>
    rw [hbytes] at hcan
    cases hcan
  | some bytes =>
    have hflushed : w.flushAndSync.dir.segments.lookup i = some bytes := by
      rw [← hbytes]
      exact AList.lookup_insert_ne hi
    have hread := h.flushAndSync.read_segment rfl hfits hflushed
    rw [hbytes] at hcan
    dsimp only at hcan
    split at hcan
    · cases hcan
    · rename_i msgs heof
      rw [heof] at hread
      have hreadable := (read_records_eof_iff fun m hm => hfits _ (mem_logOf.mp hm)).mp
        (congrArg Prod.snd hread.symm)
      rw [read_records hreadable, Prod.mk.injEq] at hread
      rw [hread.1] at hcan
      have hmax := of_decide_eq_true (Except.ok.inj hcan)
      exact fun m hm => (foldl_max_le _ _ hmax).2 _ (List.mem_map_of_mem hm)

/-- If all messages up to the last segment with a marker can be read, a marker is found
exactly if there is one. -/
theorem finds_iff (hfits : ∀ e ∈ journal, Fits e.2) (hstarted : w.started = true)
    (hreadable : ∀ e ∈ journal, low ≤ e.1 →
      ∀ e' ∈ journal, endsHeight height e'.2 = true → e.1 ≤ e'.1 → Readable e.2) :
    w.Finds height ↔ ∃ e ∈ journal, low ≤ e.1 ∧ endsHeight height e.2 = true := by
  have hflushed := h.flushAndSync
  have hmin := h.minIndex_le
  have hmax := h.maxIndex_eq
  have hlow := h.low_le
  have hfound : ∀ k, low ≤ k → (∃ m, (k, m) ∈ journal ∧ endsHeight height m = true) →
      ∃ reader, w.flushAndSync.searchSegmentForEndHeight k height = .found reader := by
    rintro k hk ⟨m, hm, hends⟩
    exact hflushed.search_exists rfl hfits hk (h.le _ hm)
      (fun x hx => hreadable _ (mem_logOf.mp hx) hk _ hm hends le_rfl)
      ⟨m, mem_logOf.mpr hm, hends⟩
  constructor
  · rintro ⟨reader, hok⟩
    have hmem : ∀ k, w.flushAndSync.searchSegmentForEndHeight k height = .found reader →
        ∃ e ∈ journal, low ≤ e.1 ∧ endsHeight height e.2 = true := by
      intro k hk
      obtain ⟨hlow, m, hm, hends⟩ := hflushed.mem_of_found rfl hfits hk
      exact ⟨(k, m), hm, hlow, hends⟩
    rcases (searchForEndHeight_found_iff hstarted (by omega)).mp hok with
      ⟨k, -, hk⟩ | ⟨-, k, -, -, hk, -⟩
    · exact hmem k hk
    · exact hmem k hk
  · rintro ⟨⟨k₀, m₀⟩, hm₀, hk₀, hends₀⟩
    cases hindex : w.heightIndex.lookup height with
    | some k =>
      obtain ⟨hk, hm⟩ := h.index height k hindex
      obtain ⟨reader, hreader⟩ := hfound k hk hm
      exact ⟨reader, (searchForEndHeight_found_iff hstarted (by omega)).mpr
        (.inl ⟨k, hindex, hreader⟩)⟩
    | none =>
      -- The scan stops at the lowest segment with a marker.
      have hex : ∃ k, low ≤ k ∧ ∃ m, (k, m) ∈ journal ∧ endsHeight height m = true :=
        ⟨k₀, hk₀, m₀, hm₀, hends₀⟩
      classical
      obtain ⟨hk, hm⟩ := Nat.find_spec hex
      obtain ⟨reader, hreader⟩ := hfound _ hk hm
      obtain ⟨m, hm, hends⟩ := hm
      have hle : Nat.find hex ≤ w.segmentIndex := h.le _ hm
      refine ⟨reader, (searchForEndHeight_found_iff hstarted (by omega)).mpr
        (.inr ⟨by simp [hindex], Nat.find hex, by omega, by omega, hreader, fun i hi hlt => ?_⟩)⟩
      by_cases hilow : low ≤ i
      · have hnone : ∀ m ∈ logOf journal i, endsHeight height m = false := by
          intro m hm
          by_contra hends
          exact Nat.find_min hex hlt ⟨hilow, m, mem_logOf.mp hm, by simpa using hends⟩
        exact (hflushed.search_missing_iff rfl hfits hnone).2.mpr
          fun _ _ m' hm' => hreadable _ (mem_logOf.mp hm') hilow _ hm hends hlt.le
      · have hout : w.flushAndSync.dir.segments.lookup i = none := by
          rw [AList.lookup_eq_none, hflushed.mem]
          omega
        rw [searchSegmentForEndHeight, hout]

/-- The current segment is not deleted, and what is deleted has no message above the
checkpoint. -/
theorem height_le_of_deletes (hfits : ∀ e ∈ journal, Fits e.2) {i : Nat}
    (hi : w.Deletes removes height i) :
    i ≠ w.segmentIndex ∧ ∀ m ∈ logOf journal i, WalCodec.height m ≤ height := by
  obtain ⟨hle, hlt, hall⟩ := hi
  have hne : i ≠ w.segmentIndex := by
    rw [h.maxIndex_eq] at hlt
    exact hlt.ne
  exact ⟨hne, h.height_le_of_canDelete hfits hne (hall i hle le_rfl).1⟩

/-- Where the checkpoint leaves the lowest segment. -/
theorem checkpoint_low (removes : Nat → Bool) (height : Int) (hstarted : w.started = true) :
    ∃ low', Layout low' (w.checkpoint removes height).1 journal ∧
      ∀ i ≤ w.segmentIndex, low' ≤ i ↔ low ≤ i ∧ ¬ w.Deletes removes height i := by
  obtain ⟨low', -, hlayout⟩ := h.checkpoint removes height
  have hremoval := Removal.checkpoint hstarted removes height
  refine ⟨low', hlayout, fun i hi => ?_⟩
  have hafter := hlayout.mem i
  rw [hremoval.segmentIndex, ← AList.lookup_isSome, hremoval.lookup] at hafter
  have hbefore := h.mem i
  rw [← AList.lookup_isSome] at hbefore
  rw [← mem_removed]
  split_ifs at hafter with hdeletes
  · simp only [Option.isSome_none, Bool.false_eq_true, false_iff, not_and] at hafter
    exact iff_of_false (fun hle => hafter hle hi) fun hand => hand.2 hdeletes
  · constructor
    · exact fun hle => ⟨(hbefore.mp (hafter.mpr ⟨hle, hi⟩)).1, hdeletes⟩
    · exact fun hand => (hafter.mp (hbefore.mpr ⟨hand.1, hi⟩)).1

/-- Markers above the checkpoint are still found. -/
theorem finds_checkpoint (hfits : ∀ e ∈ journal, Fits e.2) {g : Int} (hg : height < g)
    (hfinds : w.Finds g) : (w.checkpoint removes height).1.Finds g := by
  by_cases hstarted : w.started = true
  · obtain ⟨low', hlayout, -⟩ := h.checkpoint_low removes height hstarted
    refine (Removal.checkpoint hstarted removes height).finds ?_ ?_ ?_ hfinds
    · rw [mem_removed]
      exact fun hdeletes => (h.height_le_of_deletes hfits hdeletes).1 rfl
    · have hlow := hlayout.low_le
      have hmin := hlayout.minIndex_le
      have hmax := hlayout.maxIndex_eq
      omega
    · intro i hi r hr
      rw [mem_removed] at hi
      obtain ⟨-, m, hm, hends⟩ := h.flushAndSync.mem_of_found rfl hfits hr
      have hle := (h.height_le_of_deletes hfits hi).2 m (mem_logOf.mpr hm)
      simp only [endsHeight, Bool.and_eq_true, beq_iff_eq] at hends
      omega
  · rw [FileWAL.checkpoint, if_neg hstarted]
    exact hfinds

/-- Any marker is still found exactly if one is in a segment that is not deleted. -/
theorem finds_checkpoint_iff (hfits : ∀ e ∈ journal, Fits e.2) (hstarted : w.started = true)
    {g : Int}
    (hreadable : ∀ e ∈ journal, low ≤ e.1 → ¬ w.Deletes removes height e.1 →
      ∀ e' ∈ journal, endsHeight g e'.2 = true → e.1 ≤ e'.1 → Readable e.2) :
    (w.checkpoint removes height).1.Finds g ↔
      ∃ e ∈ journal, e.1 ∈ w.dir.segments ∧ endsHeight g e.2 = true ∧
        ¬ w.Deletes removes height e.1 := by
  obtain ⟨low', hlayout, hlow⟩ := h.checkpoint_low removes height hstarted
  have hremoval := Removal.checkpoint hstarted removes height
  rw [hlayout.finds_iff hfits (hremoval.started.trans hstarted) fun e he hle =>
    hreadable e he ((hlow e.1 (h.le e he)).mp hle).1 ((hlow e.1 (h.le e he)).mp hle).2]
  refine exists_congr fun e => and_congr_right fun he => ?_
  have hle := h.le e he
  rw [hlow e.1 hle, h.mem]
  tauto

end Layout

/-- After any calls, `Checkpoint` deletes no message above its height and no marker above
its height gets lost. The marker of the height itself stays exactly if one is in a segment
that is not deleted, if the messages that stay, up to the last segment with such a marker,
are below the size limit of the reader. -/
theorem checkpoint_keeps_iff (maxSegSize : Int) (ops : List (Op M)) {l : Log M}
    (hl : l = (Log.new M maxSegSize).run ops) (hnum : (Log.new M maxSegSize).Numbered ops)
    (hsized : l.Sized) (removes : Nat → Bool) (height : Int) :
    (∀ e ∈ l.journal, e.1 ∈ l.wal.dir.segments →
      e.1 ∉ (l.wal.checkpoint removes height).1.dir.segments → WalCodec.height e.2 ≤ height) ∧
    (∀ g, height < g → l.wal.Finds g → (l.wal.checkpoint removes height).1.Finds g) ∧
    (l.wal.Finds height →
      (∀ e ∈ l.journal, e.1 ∈ l.wal.dir.segments → ¬ l.wal.Deletes removes height e.1 →
        ∀ e' ∈ l.journal, endsHeight height e'.2 = true → e.1 ≤ e'.1 →
          msgSize e.2 < maxMsgSize) →
      ((l.wal.checkpoint removes height).1.Finds height ↔
        ∃ e ∈ l.journal, e.1 ∈ l.wal.dir.segments ∧ endsHeight height e.2 = true ∧
          ¬ l.wal.Deletes removes height e.1)) := by
  obtain ⟨low, -, hlaid, -⟩ :=
    Log.run_laid ops (Log.new_laid maxSegSize) hnum (by rw [← hl]; exact hsized)
  rw [← hl] at hlaid
  have hfits := hlaid.fits hsized
  refine ⟨fun e he hbefore hafter => ?_, fun g hg => Layout.finds_checkpoint hlaid hfits hg,
    fun hfinds hsize => ?_⟩
  · by_cases hstarted : l.wal.started = true
    · obtain ⟨low', hlayout, hlow⟩ := Layout.checkpoint_low hlaid removes height hstarted
      have hle := hlaid.le e he
      rw [hlayout.mem, (Removal.checkpoint hstarted removes height).segmentIndex,
        hlow e.1 hle] at hafter
      have hdeletes : l.wal.Deletes removes height e.1 := by
        by_contra hkept
        exact hafter ⟨⟨((hlaid.mem e.1).mp hbefore).1, hkept⟩, hle⟩
      exact (Layout.height_le_of_deletes hlaid hfits hdeletes).2 e.2 (mem_logOf.mpr he)
    · rw [FileWAL.checkpoint, if_neg hstarted] at hafter
      exact absurd hbefore hafter
  · refine Layout.finds_checkpoint_iff hlaid hfits hfinds.started
      fun e he hle hkept e' he' hends hbefore => ⟨hlaid.encoded e he, ?_⟩
    exact hsize e he ((hlaid.mem e.1).mpr ⟨hle, hlaid.le e he⟩) hkept e' he' hends hbefore

section logs

attribute [local instance] markCodec

/-- The marker of height 1 is alone in its segment, and `Checkpoint(1)` deletes it. -/
theorem checkpoint_deletes_own_marker :
    ((Log.new Mark 1).run [.writeSync ⟨1, true⟩, .writeSync ⟨2, false⟩]).wal.Finds 1 ∧
    ¬ (((Log.new Mark 1).run [.writeSync ⟨1, true⟩, .writeSync ⟨2, false⟩]).wal.checkpoint
      (fun _ => true) 1).1.Finds 1 := by
  have hafter : ((((Log.new Mark 1).run
      [.writeSync ⟨1, true⟩, .writeSync ⟨2, false⟩]).wal.checkpoint
        (fun _ => true) 1).1.searchForEndHeight 1).2 = .ok none := by decide +kernel
  refine ⟨⟨[], by decide +kernel⟩, ?_⟩
  rintro ⟨reader, hok⟩
  rw [hafter] at hok
  cases hok

/-- In the current segment the marker stays. -/
theorem checkpoint_keeps_mark :
    (((Log.new Mark 99).run [.write ⟨1, true⟩, .write ⟨2, false⟩]).wal.checkpoint
      (fun _ => true) 1).1.Finds 1 := by
  have hsized : ((Log.new Mark 99).run [.write ⟨1, true⟩, .write ⟨2, false⟩]).Sized := by
    unfold Log.Sized
    decide +kernel
  have hsize : ∀ e ∈ ((Log.new Mark 99).run [.write ⟨1, true⟩, .write ⟨2, false⟩]).journal,
      msgSize e.2 < maxMsgSize := by decide +kernel
  have hmem : (0, ⟨1, true⟩) ∈
      ((Log.new Mark 99).run [.write ⟨1, true⟩, .write ⟨2, false⟩]).journal := by decide +kernel
  have hsegment : 0 ∈
      ((Log.new Mark 99).run [.write ⟨1, true⟩, .write ⟨2, false⟩]).wal.dir.segments := by
    decide +kernel
  have hlast : ((Log.new Mark 99).run
      [.write ⟨1, true⟩, .write ⟨2, false⟩]).wal.maxIndex = 0 := by decide +kernel
  have hfinds : ((Log.new Mark 99).run [.write ⟨1, true⟩, .write ⟨2, false⟩]).wal.Finds 1 :=
    ⟨record (⟨2, false⟩ : Mark), by decide +kernel⟩
  obtain ⟨-, -, hiff⟩ := checkpoint_keeps_iff (M := Mark) 99 [.write ⟨1, true⟩, .write ⟨2, false⟩]
    rfl ⟨nofun, nofun, trivial⟩ hsized (fun _ => true) 1
  refine (hiff hfinds fun e he _ _ _ _ _ _ => hsize e he).mpr
    ⟨_, hmem, hsegment, rfl, fun hdeletes => ?_⟩
  have hlt := hdeletes.2.1
  rw [hlast] at hlt
  exact lt_irrefl 0 hlt

end logs

end Leaderberry.Wal
