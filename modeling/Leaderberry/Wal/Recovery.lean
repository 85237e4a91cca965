import Mathlib.Data.List.Induction
import Leaderberry.Wal.Search
import Leaderberry.Wal.Torn

/-!
# Searching after a restart

A search needs what a restart rebuilt: the segments, and the index over them. After a crash
that leaves no part of a field it returns what follows the first marker in the last segment
that has one, and nothing of the segments after it (`Log.Laid.recovered_search`).

Messages written with `WriteSync` are complete whatever the crash leaves behind the last
sync; those written with `Write` may be lost (`Crashed.lost`).
-/

namespace Leaderberry.Wal

open RecordStream FileWAL

variable {M : Type} [WalCodec M]

/-! ## The segment of the marker -/

namespace Log

/-- The last segment with a marker of the height. -/
def markerSegment (l : Log M) (height : Int) : Option Nat :=
  ((indices l.wal.minIndex l.wal.maxIndex).filter fun i =>
    (logOf l.journal i).any (endsHeight height)).getLast?

/-- The messages behind the first marker of that segment, to the end of the segment. -/
def sinceMarker (l : Log M) (height : Int) : List M :=
  match l.markerSegment height with
  | none => []
  | some i => afterFirst (endsHeight height) (logOf l.journal i)

theorem sinceMarker_cases (l : Log M) (height : Int) :
    l.sinceMarker height = [] ∨
      ∃ i ∈ indices l.wal.minIndex l.wal.maxIndex,
        (∃ m ∈ logOf l.journal i, endsHeight height m = true) ∧
        l.sinceMarker height = afterFirst (endsHeight height) (logOf l.journal i) := by
  unfold sinceMarker
  cases hi : l.markerSegment height with
  | none => exact .inl rfl
  | some i =>
    obtain ⟨hmem, hany⟩ := List.mem_filter.mp (List.mem_of_getLast? hi)
    exact .inr ⟨i, hmem, List.any_eq_true.mp hany, rfl⟩

variable {low : Nat} {l : Log M} {c : Nat} {maxSegSize : Int} {height : Int}

variable (c maxSegSize) in
/-- The segments of the restarted log. -/
theorem Laid.recovered_indices (h : l.Laid low) (hnum : l.wal.segmentIndex < 100000) :
    indices (l.recovered c maxSegSize).wal.minIndex (l.recovered c maxSegSize).wal.maxIndex =
      indices low l.wal.segmentIndex := by
  rw [h.recovered_eq c maxSegSize hnum]

/-- A marker among the last messages is the one that counts. -/
theorem Laid.recovered_sinceMarker (h : l.Laid low) (hnum : l.wal.segmentIndex < 100000)
    (hmarker : ∃ m ∈ fullRecords c l.last, endsHeight height m = true) :
    (l.recovered c maxSegSize).sinceMarker height =
      afterFirst (endsHeight height) (fullRecords c l.last) := by
  have hlast : (l.recovered c maxSegSize).markerSegment height = some l.wal.segmentIndex := by
    unfold markerSegment
    rw [h.recovered_indices c maxSegSize hnum, indices_eq h.low_le, List.filter_append,
      List.filter_cons_of_pos]
    · simp
    · show (logOf (l.surviving c) _).any _ = true
      rw [logOf_surviving_last, List.any_eq_true]
      exact hmarker
  unfold sinceMarker
  rw [hlast]
  exact congrArg (afterFirst (endsHeight height)) logOf_surviving_last

/-- What is in a segment is read. -/
theorem Laid.recovered_segment (h : l.Laid low) (maxSegSize : Int)
    (hreadable : ∀ e ∈ l.journal, Readable e.2) (hnum : l.wal.segmentIndex < 100000)
    (hcut : CutBetweenFields c l.last) {i : Nat} (hi : i ∈ indices low l.wal.segmentIndex) :
    ∃ bytes, (l.crash c).segments.lookup i = some bytes ∧
      (l.recovered c maxSegSize).wal.flushAndSync.dir.segments.lookup i = some bytes ∧
      (decoder M).read bytes = (logOf (l.surviving c) i, none) := by
  obtain ⟨hindex, hcurrent⟩ := h.recovered_current c maxSegSize hnum
  rcases List.mem_append.mp (indices_eq h.low_le ▸ hi) with hi' | hi'
  · rw [List.mem_range'_1] at hi'
    have hne : i ≠ l.wal.segmentIndex := by omega
    have hlookup : (l.recovered c maxSegSize).wal.dir.segments.lookup i =
        some ((l.recovered c maxSegSize).wal.segment i) := by
      refine lookup_eq (h.recovered_outline hreadable hnum) ?_
      rwa [hindex]
    have hcrash : (l.crash c).segments.lookup i =
        (l.recovered c maxSegSize).wal.dir.segments.lookup i := by
      rw [h.recovered_eq c maxSegSize hnum]
      exact (AList.lookup_insert_ne hne).symm
    refine ⟨_, hcrash.trans hlookup, ?_,
      h.read_recovered c maxSegSize hreadable hnum hi'.1 (by omega)⟩
    rw [FileWAL.flushAndSync, hindex, AList.lookup_insert_ne hne]
    exact hlookup
  · rw [List.mem_singleton.mp hi']
    rw [logOf_surviving_last] at hcurrent
    refine ⟨_, h.lookup_crash_last, ?_, ?_⟩
    · rw [← hcurrent, FileWAL.flushAndSync, hindex, AList.lookup_insert]
    · have hlast : ∀ x ∈ l.last, Readable x := fun x hx => hreadable _ (mem_logOf.mp hx)
      have hread := h.read_recovered_last c maxSegSize hreadable hnum
      rw [(h.segment_recovered c maxSegSize hnum).1] at hread
      rw [hread, (read_tornBytes hlast).2.mpr hcut]

/-- The index that the restart builds knows the segment of the marker. -/
theorem Laid.recovered_lookup (h : l.Laid low) (hreadable : ∀ e ∈ l.journal, Readable e.2)
    (hnum : l.wal.segmentIndex < 100000) (hcut : CutBetweenFields c l.last) :
    (l.recovered c maxSegSize).wal.heightIndex.lookup height =
      (l.recovered c maxSegSize).markerSegment height := by
  have hbuilt : (l.recovered c maxSegSize).wal.heightIndex =
      buildIndex M (l.crash c) low l.wal.segmentIndex := by
    rw [h.recovered_eq c maxSegSize hnum]
  unfold markerSegment
  rw [hbuilt, buildIndex, Layout.lookup_foldl_indexSegment, h.recovered_indices c maxSegSize hnum]
  congr 1
  refine List.filter_congr fun i hi => ?_
  obtain ⟨bytes, hbytes, -, hread⟩ :=
    h.recovered_segment maxSegSize hreadable hnum hcut hi
  rw [Layout.marks, hbytes]
  dsimp only
  rw [hread]
  rfl

/-- **A search after a restart returns what follows the marker in its segment**, and finds
nothing if no segment has one. -/
theorem Laid.recovered_search (h : l.Laid low) (hreadable : ∀ e ∈ l.journal, Readable e.2)
    (hnum : l.wal.segmentIndex < 100000) (hcut : CutBetweenFields c l.last) (height : Int) :
    let log := l.recovered c maxSegSize
    (log.markerSegment height = none ∧ (log.wal.searchForEndHeight height).2 = .ok none) ∨
      ∃ reader, (log.wal.searchForEndHeight height).2 = .ok (some reader) ∧
        (decoder M).read reader = (log.sinceMarker height, none) := by
  intro log
  have hlookup : log.wal.heightIndex.lookup height = log.markerSegment height :=
    h.recovered_lookup hreadable hnum hcut
  have hstarted : log.wal.started = true := by
    show (l.recovered c maxSegSize).wal.started = true
    rw [h.recovered_eq c maxSegSize hnum]
  have hindices : indices log.wal.minIndex log.wal.maxIndex = indices low l.wal.segmentIndex :=
    h.recovered_indices c maxSegSize hnum
  cases hmarker : log.markerSegment height with
  | none =>
    refine .inl ⟨rfl, ?_⟩
    have hnone := List.filter_eq_nil_iff.mp (List.getLast?_eq_none_iff.mp hmarker)
    have hmissing : ∀ i ∈ indices log.wal.minIndex log.wal.maxIndex,
        log.wal.flushAndSync.searchSegmentForEndHeight i height = .missing := by
      intro i hi
      have hfree := hnone i hi
      rw [hindices] at hi
      obtain ⟨bytes, -, hbytes, hread⟩ :=
        h.recovered_segment maxSegSize hreadable hnum hcut hi
      rw [searchSegmentForEndHeight, hbytes]
      dsimp only
      rw [Decoder.seek_of_forall (d := decoder M) bytes, hread]
      rw [hread]
      exact fun m hm => by simpa using fun hends => hfree (List.any_eq_true.mpr ⟨m, hm, hends⟩)
    rw [searchForEndHeight, if_pos hstarted]
    dsimp only
    have hscan : log.wal.flushAndSync.heightIndex.lookup height = none := hlookup.trans hmarker
    rw [hscan]
    rcases Layout.scanSegments_cases height log.wal.flushAndSync
      (indices log.wal.flushAndSync.minIndex log.wal.flushAndSync.maxIndex) with
      ⟨-, heq⟩ | ⟨before, i, after, hsplit, -, hfound⟩
    · rw [heq]
    · have hi := hmissing i (by
        show i ∈ indices log.wal.flushAndSync.minIndex log.wal.flushAndSync.maxIndex
        rw [hsplit]
        simp)
      rcases hfound with ⟨e, he, -⟩ | ⟨reader, hr, -⟩
      · rw [hi] at he
        cases he
      · rw [hi] at hr
        cases hr
  | some i =>
    obtain ⟨hi, hany⟩ := List.mem_filter.mp (List.mem_of_getLast? hmarker)
    obtain ⟨before, m, hsplit, hm, hbefore⟩ := afterFirst_split (List.any_eq_true.mp hany)
    rw [hindices] at hi
    obtain ⟨bytes, -, hbytes, hread⟩ :=
      h.recovered_segment maxSegSize hreadable hnum hcut hi
    rw [show logOf (l.surviving c) i = _ from hsplit] at hread
    obtain ⟨reader, hseek, hafter⟩ := Decoder.seek_read hm _ hbefore hread
    have hle : log.wal.minIndex ≤ log.wal.maxIndex := by
      show (l.recovered c maxSegSize).wal.minIndex ≤ (l.recovered c maxSegSize).wal.maxIndex
      rw [h.recovered_eq c maxSegSize hnum]
      exact h.low_le
    refine .inr ⟨reader, (Layout.searchForEndHeight_found_iff hstarted hle).mpr
      (.inl ⟨i, hlookup.trans hmarker, ?_⟩), ?_⟩
    · rw [searchSegmentForEndHeight, hbytes]
      exact hseek
    · rw [hafter, sinceMarker, hmarker]

end Log

/-! ## What a crash can lose -/

/-- A write as a call; the flag tells `WriteSync` from `Write`. -/
def Op.ofWrite (w : M × Bool) : Op M := if w.2 then .writeSync w.1 else .write w.1

omit [WalCodec M] in
theorem segmentIndex_rotateIfFull (w : FileWAL M) :
    w.segmentIndex ≤ w.rotateIfFull.segmentIndex := by
  unfold FileWAL.rotateIfFull
  split
  · exact Nat.le_succ _
  · exact le_rfl

theorem segmentIndex_write (w : FileWAL M) (m : M) :
    w.segmentIndex ≤ (w.write m).1.segmentIndex := by
  unfold FileWAL.write
  split
  · split <;> exact segmentIndex_rotateIfFull w
  · exact le_rfl

/-- A write never goes back to an earlier segment. -/
theorem Log.segmentIndex_step (l : Log M) (w : M × Bool) :
    l.wal.segmentIndex ≤ (l.step (.ofWrite w)).wal.segmentIndex := by
  unfold Op.ofWrite
  split
  · show _ ≤ (l.accept w.1 (l.wal.writeSync w.1)).wal.segmentIndex
    rw [wal_accept, (Layout.writeSync_eq l.wal w.1).2]
    split <;> exact segmentIndex_write l.wal w.1
  · show _ ≤ (l.accept w.1 (l.wal.write w.1)).wal.segmentIndex
    rw [wal_accept]
    exact segmentIndex_write l.wal w.1

theorem Log.segmentIndex_run (l : Log M) (writes : List (M × Bool)) :
    l.wal.segmentIndex ≤ (l.run (writes.map .ofWrite)).wal.segmentIndex := by
  induction writes generalizing l with
  | nil => exact le_rfl
  | cons w writes ih => exact (l.segmentIndex_step w).trans (ih _)

theorem fullRecords_append {msgs₂ : List M} : ∀ {msgs₁ : List M} {c : Nat},
    (records msgs₁).length ≤ c →
    fullRecords c (msgs₁ ++ msgs₂) =
      msgs₁ ++ fullRecords (c - (records msgs₁).length) msgs₂
  | [], c, _ => by simp [records]
  | m :: msgs₁, c, h => by
    have hlength : (records (m :: msgs₁)).length = (record m).length + (records msgs₁).length := by
      simp [records]
    rw [List.cons_append, fullRecords, if_pos (by omega), fullRecords_append (by omega), hlength,
      Nat.sub_sub]
    rfl

theorem fullRecords_prefix : ∀ (msgs : List M) (c : Nat), fullRecords c msgs <+: msgs
  | [], _ => List.prefix_rfl
  | m :: msgs, c => by
    rw [fullRecords]
    split
    · exact List.cons_prefix_cons.mpr ⟨rfl, fullRecords_prefix msgs _⟩
    · exact List.nil_prefix

/-- The messages of the last segment, up to the last sync and since then. -/
structure Logged (low : Nat) (l : Log M) (synced pending : List M) : Prop where
  laid : l.Laid low
  started : l.wal.started = true
  last : l.last = synced ++ pending
  buf : l.wal.buf = records pending

namespace Log

/-- A write to a started log, of a message that can be encoded. -/
theorem step_ofWrite {l : Log M} (hstarted : l.wal.started = true) {w : M × Bool} {data : Bytes}
    (hdata : WalCodec.marshal w.1 = some data) :
    l.step (.ofWrite w) =
      ⟨if w.2 then (l.wal.rotateIfFull.append w.1 data).flushAndSync
        else l.wal.rotateIfFull.append w.1 data,
       l.journal ++ [(l.wal.rotateIfFull.segmentIndex, w.1)]⟩ := by
  have hwrite : l.wal.write w.1 = (l.wal.rotateIfFull.append w.1 data, .ok ()) := by
    rw [FileWAL.write, if_pos hstarted, hdata]
  obtain ⟨m, sync⟩ := w
  cases sync with
  | true =>
    show l.accept m (l.wal.writeSync m) = _
    rw [FileWAL.writeSync, hwrite]
    rfl
  | false =>
    show l.accept m (l.wal.write m) = _
    rw [hwrite]
    rfl

theorem Laid.step_ofWrite {low : Nat} {l : Log M} (h : l.Laid low) (w : M × Bool) :
    (l.step (.ofWrite w)).Laid low := by
  unfold Op.ofWrite
  split
  · exact accept_laid (Layout.writeSync h w.1)
  · exact accept_laid (Layout.write h w.1)

end Log

namespace Logged

variable {low : Nat} {l₀ l : Log M} {synced pending : List M}

/-- What is in the file is what was synced. -/
theorem segment (h : Logged low l synced pending) :
    l.wal.segment l.wal.segmentIndex = records synced := by
  have hcurrent := h.laid.current
  have hlast : logOf l.journal l.wal.segmentIndex = synced ++ pending := h.last
  rw [hlast, records_append, h.buf] at hcurrent
  exact List.append_cancel_right hcurrent

/-- A write goes to the buffer, maybe after a rotation has emptied it, or to the file. -/
theorem write (h : Logged low l synced pending) {w : M × Bool}
    (hencoded : (WalCodec.marshal w.1).isSome) :
    ∃ synced' pending', (∀ m ∈ pending', m ∈ pending ∨ w = (m, false)) ∧
      Logged low (l.step (.ofWrite w)) synced' pending' := by
  obtain ⟨data, hdata⟩ := Option.isSome_iff_exists.mp hencoded
  have hrecord : record w.1 = frame M data := by
    rw [record, hdata]
    rfl
  have hlaid := h.laid.step_ofWrite w
  have hstep := Log.step_ofWrite h.started hdata
  have hstarted : (l.wal.rotateIfFull.append w.1 data).started = true :=
    (Layout.started_rotateIfFull l.wal).trans h.started
  have hlast : ∀ wal : FileWAL M, wal.segmentIndex = l.wal.rotateIfFull.segmentIndex →
      Log.last ⟨wal, l.journal ++ [(l.wal.rotateIfFull.segmentIndex, w.1)]⟩ =
        logOf l.journal l.wal.rotateIfFull.segmentIndex ++ [w.1] := by
    intro wal hwal
    rw [Log.last, hwal, logOf_append]
    exact congrArg _ (logOf_map [w.1] _)
  obtain ⟨m, sync⟩ := w
  rw [hstep] at hlaid ⊢
  cases sync with
  | true =>
    exact ⟨logOf l.journal l.wal.rotateIfFull.segmentIndex ++ [m], [], by simp, hlaid, hstarted,
      by rw [List.append_nil]; exact hlast _ rfl, rfl⟩
  | false =>
    have hbuf : (l.wal.rotateIfFull.append m data).buf = l.wal.rotateIfFull.buf ++ record m := by
      rw [hrecord]
      rfl
    by_cases hfull : l.wal.maxSegSize ≤ l.wal.segmentSize
    · refine ⟨logOf l.journal l.wal.rotateIfFull.segmentIndex, [m], by simp, hlaid, hstarted,
        hlast _ rfl, ?_⟩
      show (l.wal.rotateIfFull.append m data).buf = _
      rw [hbuf, FileWAL.rotateIfFull, if_pos hfull]
      simp [records, FileWAL.rotate, FileWAL.openSegment]
    · have hnot : l.wal.rotateIfFull = l.wal := by
        rw [FileWAL.rotateIfFull, if_neg hfull]
      refine ⟨synced, pending ++ [m], fun x hx => ?_, hlaid, hstarted, ?_, ?_⟩
      · rcases List.mem_append.mp hx with hx | hx
        · exact .inl hx
        · exact .inr (by rw [List.mem_singleton.mp hx])
      · have hbefore : logOf l.journal l.wal.segmentIndex = synced ++ pending := h.last
        refine (hlast _ rfl).trans ?_
        rw [hnot, hbefore, List.append_assoc]
      · show (l.wal.rotateIfFull.append m data).buf = _
        rw [hbuf, hnot, h.buf]
        simp [records]

/-- Write after write. -/
theorem run (h : Logged low l₀ l₀.last []) : ∀ (writes : List (M × Bool)),
    (∀ w ∈ writes, (WalCodec.marshal w.1).isSome) →
    ∃ new synced pending, (l₀.run (writes.map .ofWrite)).journal = l₀.journal ++ new ∧
      new.map Prod.snd = writes.map Prod.fst ∧ (∀ e ∈ new, l₀.wal.segmentIndex ≤ e.1) ∧
      (∀ m ∈ pending, (m, false) ∈ writes) ∧
      Logged low (l₀.run (writes.map .ofWrite)) synced pending := by
  intro writes
  induction writes using List.reverseRecOn with
  | nil =>
    intro _
    exact ⟨[], l₀.last, [], (List.append_nil _).symm, rfl, by simp, by simp, h⟩
  | append_singleton writes w ih =>
    intro hencoded
    have hrun : l₀.run ((writes ++ [w]).map .ofWrite) =
        (l₀.run (writes.map .ofWrite)).step (.ofWrite w) := by
      simp [Log.run]
    have hmono : l₀.wal.segmentIndex ≤ (l₀.run (writes.map .ofWrite)).wal.segmentIndex :=
      Log.segmentIndex_run l₀ writes
    obtain ⟨new, synced, pending, hjournal, hnew, hsegment, hpending, hlogged⟩ :=
      ih fun x hx => hencoded x (List.mem_append_left _ hx)
    obtain ⟨synced', pending', hpending', hlogged'⟩ := hlogged.write (hencoded w (by simp))
    obtain ⟨data, hdata⟩ := Option.isSome_iff_exists.mp (hencoded w (by simp))
    rw [hrun]
    refine ⟨new ++ [((l₀.run (writes.map .ofWrite)).wal.rotateIfFull.segmentIndex, w.1)],
      synced', pending', ?_, ?_, fun e he => ?_, fun m hm => ?_, hlogged'⟩
    · rw [Log.step_ofWrite hlogged.started hdata, hjournal, List.append_assoc]
    · rw [List.map_append, List.map_append, hnew]
      rfl
    · rcases List.mem_append.mp he with he | he
      · exact hsegment e he
      · rw [List.mem_singleton.mp he]
        exact hmono.trans (segmentIndex_rotateIfFull _)
    · rcases hpending' m hm with hm | rfl
      · exact List.mem_append_left _ (hpending m hm)
      · simp

/-- A crash keeps the messages that were synced. -/
theorem fullRecords (h : Logged low l synced pending) {c : Nat}
    (hc : (l.wal.segment l.wal.segmentIndex).length ≤ c) :
    ∃ lost, l.last = Wal.fullRecords c l.last ++ lost ∧ ∀ m ∈ lost, m ∈ pending := by
  rw [h.segment] at hc
  obtain ⟨lost, hlost⟩ := fullRecords_prefix pending (c - (records synced).length)
  refine ⟨lost, ?_, fun m hm => ?_⟩
  · rw [h.last, fullRecords_append hc, List.append_assoc, hlost]
  · rw [← hlost]
    exact List.mem_append_right _ hm

end Logged

/-- Messages are written to a log that is open, and a crash leaves `c` bytes of its last
segment: at least what was synced, and no part of a field. -/
structure Crashed (low : Nat) (l₀ : Log M) (writes : List (M × Bool)) (l : Log M) (c : Nat) :
    Prop where
  laid : l₀.Laid low
  started : l₀.wal.started = true
  buf : l₀.wal.buf = []
  run : l = l₀.run (writes.map .ofWrite)
  readable₀ : ∀ e ∈ l₀.journal, Readable e.2
  readable : ∀ w ∈ writes, Readable w.1
  number : l.wal.segmentIndex < 100000
  synced : (l.wal.segment l.wal.segmentIndex).length ≤ c
  cut : CutBetweenFields c l.last

namespace Crashed

variable {low : Nat} {l₀ l : Log M} {writes : List (M × Bool)} {c : Nat}

variable (h : Crashed low l₀ writes l c)

include h

theorem logged :
    ∃ new synced pending, l.journal = l₀.journal ++ new ∧
      new.map Prod.snd = writes.map Prod.fst ∧ (∀ e ∈ new, l₀.wal.segmentIndex ≤ e.1) ∧
      (∀ m ∈ pending, (m, false) ∈ writes) ∧ Logged low l synced pending := by
  rw [h.run]
  exact Logged.run ⟨h.laid, h.started, (List.append_nil _).symm, h.buf⟩ writes
    fun w hw => (h.readable w hw).encoded

/-- The messages of the log. -/
theorem journal : l.journal.map Prod.snd = l₀.journal.map Prod.snd ++ writes.map Prod.fst := by
  obtain ⟨new, -, -, hjournal, hnew, -⟩ := h.logged
  rw [hjournal, List.map_append, hnew]

/-- The messages of the last segment, if no other one was started. -/
theorem last_eq (hsegment : l.wal.segmentIndex = l₀.wal.segmentIndex) :
    l.last = l₀.last ++ writes.map Prod.fst := by
  obtain ⟨new, _, _, hjournal, hnew, hle, -, hlogged⟩ := h.logged
  have hall : ∀ e ∈ new, e.1 = l₀.wal.segmentIndex := by
    intro e he
    refine le_antisymm ?_ (hle e he)
    rw [← hsegment]
    exact hlogged.laid.le e (by rw [hjournal]; exact List.mem_append_right _ he)
  rw [Log.last, hjournal, hsegment, logOf_append, logOf_of_forall hall, hnew]
  rfl

/-- Only messages written without a sync are lost. -/
theorem lost : ∃ lost, l.last = fullRecords c l.last ++ lost ∧ ∀ m ∈ lost, (m, false) ∈ writes := by
  obtain ⟨_, _, _, -, -, -, hpending, hlogged⟩ := h.logged
  obtain ⟨lost, hlast, hlost⟩ := hlogged.fullRecords h.synced
  exact ⟨lost, hlast, fun m hm => hpending m (hlost m hm)⟩

theorem readable_journal : ∀ e ∈ l.journal, Readable e.2 := by
  obtain ⟨new, _, _, hjournal, hnew, -⟩ := h.logged
  intro e he
  rw [hjournal] at he
  rcases List.mem_append.mp he with he | he
  · exact h.readable₀ e he
  · have hmem : e.2 ∈ writes.map Prod.fst := by
      rw [← hnew]
      exact List.mem_map_of_mem he
    obtain ⟨w, hw, heq⟩ := List.mem_map.mp hmem
    rw [← heq]
    exact h.readable w hw

theorem laid_end : l.Laid low := by
  obtain ⟨_, _, _, -, -, -, -, hlogged⟩ := h.logged
  exact hlogged.laid

end Crashed

end Leaderberry.Wal
