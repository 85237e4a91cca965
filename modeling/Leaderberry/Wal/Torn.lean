import Leaderberry.Wal.RoundTrip

/-!
# Recovery from a torn tail

A crash cuts the last segment anywhere. `Start` opens what is left for appending, leftover
bytes of a half-written record included.

- What was written completely is read back (`Log.Laid.recovered_read`), and then an error,
  unless the cut is at the end of a record or between two fields of one.
- What is written afterwards follows the leftover bytes. It is read back if there are none,
  or if they are taken for the end of the segment and the first write starts a new one
  (`Log.Laid.recovered_write`).
-/

namespace Leaderberry.Wal

open RecordStream FileWAL

variable {M : Type} [WalCodec M] {m : M} {c : Nat} {msgs : List M}

/-! ## Cutting records -/

/-- The messages whose records are complete in the first `c` bytes. -/
def fullRecords (c : Nat) : List M → List M
  | [] => []
  | m :: rest =>
    if (record m).length ≤ c then m :: fullRecords (c - (record m).length) rest else []

/-- The record that is cut, with the number of its bytes that are left. -/
def tornRecord (c : Nat) : List M → Option (Nat × M)
  | [] => none
  | m :: rest =>
    if (record m).length ≤ c then tornRecord (c - (record m).length) rest else some (c, m)

/-- What is left of it. -/
def tornBytes (c : Nat) (msgs : List M) : Bytes :=
  match tornRecord c msgs with
  | none => []
  | some (k, m) => (record m).take k

theorem tornRecord_some {k : Nat} : ∀ {msgs : List M} {c : Nat},
    tornRecord c msgs = some (k, m) → m ∈ msgs ∧ k < (record m).length
  | x :: rest, c, h => by
    rw [tornRecord] at h
    split at h
    · obtain ⟨hmem, hk⟩ := tornRecord_some h
      exact ⟨List.mem_cons_of_mem _ hmem, hk⟩
    · rename_i hlen
      cases h
      exact ⟨List.mem_cons_self .., not_le.mp hlen⟩

theorem mem_of_mem_fullRecords : ∀ {msgs : List M} {c : Nat},
    m ∈ fullRecords c msgs → m ∈ msgs
  | x :: rest, c, h => by
    rw [fullRecords] at h
    split at h
    · rcases List.mem_cons.mp h with rfl | h
      · exact List.mem_cons_self ..
      · exact List.mem_cons_of_mem _ (mem_of_mem_fullRecords h)
    · cases h

/-- A cut leaves the complete records and a part of the next one. -/
theorem take_records : ∀ (msgs : List M) (c : Nat),
    (records msgs).take c = records (fullRecords c msgs) ++ tornBytes c msgs
  | [], c => by simp [records, fullRecords, tornBytes, tornRecord]
  | m :: rest, c => by
    have hcons : records (m :: rest) = record m ++ records rest := List.flatMap_cons ..
    by_cases hlen : (record m).length ≤ c
    · have htorn : tornBytes c (m :: rest) = tornBytes (c - (record m).length) rest := by
        rw [tornBytes, tornRecord, if_pos hlen]
        rfl
      rw [hcons, List.take_append, List.take_of_length_le hlen, take_records rest, htorn,
        fullRecords, if_pos hlen, ← List.append_assoc]
      rfl
    · have htorn : tornBytes c (m :: rest) = (record m).take c := by
        rw [tornBytes, tornRecord, if_neg hlen]
      rw [hcons, List.take_append_of_le_length (by omega), htorn, fullRecords, if_neg hlen]
      rfl

theorem readFull_short {n : Nat} {s : Bytes} (h : s.length < n) :
    readFull n s = .error (if s.length = 0 then .eof else .unexpectedEOF) := by
  unfold readFull
  rw [if_neg (by omega)]
  by_cases hs : s.length = 0
  · rw [if_pos hs, if_pos hs]
  · rw [if_neg hs, if_pos h, if_neg hs]

/-- `k` bytes of a record are a complete number of fields. -/
def BetweenFields (k : Nat) (m : M) : Prop := k = 0 ∨ k = 4 ∨ k = 4 + msgSize m

instance (k : Nat) (m : M) : Decidable (BetweenFields k m) :=
  inferInstanceAs (Decidable (_ ∨ _ ∨ _))

omit [WalCodec M] in
theorem ReadError.step_ite {r : Nat} {P : Prop} [Decidable P] (h : r = 0 ↔ P) :
    (if r = 0 then ReadError.eof else .unexpectedEOF).step M =
      if P then .eof else .error .unexpectedEOF := by
  by_cases hr : r = 0
  · rw [if_pos hr, if_pos (h.mp hr)]
    rfl
  · rw [if_neg hr, if_neg fun hP => hr (h.mpr hP)]
    rfl

/-- A cut record is the end of the segment if it is cut between two fields, and an error if
it is cut within a field. -/
theorem decode_take (hm : Readable m) {k : Nat} (hk : k < (record m).length) :
    decode M ((record m).take k) =
      if BetweenFields k m then .eof else .error .unexpectedEOF := by
  obtain ⟨data, hdata⟩ := Option.isSome_iff_exists.mp hm.encoded
  have hrecord : record m = frame M data := by
    rw [record, hdata]
    rfl
  have hsize : msgSize m = data.length := by
    rw [msgSize, hdata]
    rfl
  have hfields : BetweenFields k m ↔ k = 0 ∨ k = 4 ∨ k = 4 + data.length := by
    rw [BetweenFields, hsize]
  have hmax := hm.size
  rw [hsize] at hmax
  rw [hrecord] at hk ⊢
  rw [length_frame] at hk
  rcases lt_or_ge k 4 with hk4 | hk4
  · -- within the length field
    have hlen : ((frame M data).take k).length = k := by
      rw [List.length_take, length_frame]
      omega
    rw [decode, readFull_short (by omega), hlen]
    exact ReadError.step_ite (by rw [hfields]; omega)
  obtain ⟨j, rfl⟩ : ∃ j, k = 4 + j := ⟨k - 4, by omega⟩
  have htake : (frame M data).take (4 + j) = putUint32 data.length ++
      (data ++ putUint32 (WalCodec.crc32 M data).toNat).take j := by
    rw [frame, List.take_append, length_putUint32, List.take_of_length_le (by
      rw [length_putUint32]; omega), Nat.add_sub_cancel_left]
  rw [htake, decode_length, Nat.mod_eq_of_lt (hmax.trans (by decide)), if_neg (not_le.mpr hmax)]
  rcases lt_or_ge j data.length with hj | hj
  · -- within the data
    have hlen : ((data ++ putUint32 (WalCodec.crc32 M data).toNat).take j).length = j := by
      rw [List.length_take, List.length_append]
      omega
    rw [readFull_short (by omega), hlen]
    exact ReadError.step_ite (by rw [hfields]; omega)
  -- within the checksum
  obtain ⟨i, rfl⟩ : ∃ i, j = data.length + i := ⟨j - data.length, by omega⟩
  have hcrc : ((putUint32 (WalCodec.crc32 M data).toNat).take i).length = i := by
    rw [List.length_take, length_putUint32]
    omega
  rw [List.take_append, List.take_of_length_le (by omega), Nat.add_sub_cancel_left,
    readFull_append]
  dsimp only
  rw [readFull_short (by omega), hcrc]
  exact ReadError.step_ite (by rw [hfields]; omega)

/-- The cut is between two fields, or at the end of a record. -/
def CutBetweenFields (c : Nat) (msgs : List M) : Prop :=
  ∀ k m, tornRecord c msgs = some (k, m) → BetweenFields k m

/-- The cut is at the end of a record. -/
def CutBetweenRecords (c : Nat) (msgs : List M) : Prop :=
  ∀ k m, tornRecord c msgs = some (k, m) → k = 0

theorem CutBetweenRecords.tornBytes_eq (h : CutBetweenRecords c msgs) :
    tornBytes c msgs = [] := by
  unfold tornBytes
  split
  · rfl
  · rename_i k m hk
    rw [h k m hk, List.take_zero]

/-- What is left of a cut record is read as nothing, with or without an error. -/
theorem read_tornBytes (h : ∀ m ∈ msgs, Readable m) :
    ((decoder M).read (tornBytes c msgs)).1 = [] ∧
      (((decoder M).read (tornBytes c msgs)).2 = none ↔ CutBetweenFields c msgs) := by
  unfold tornBytes CutBetweenFields
  cases htorn : tornRecord c msgs with
  | none =>
    dsimp only
    rw [read_nil]
    exact ⟨rfl, iff_of_true rfl nofun⟩
  | some km =>
    obtain ⟨k, m⟩ := km
    obtain ⟨hmem, hk⟩ := tornRecord_some htorn
    have hdecode := decode_take (h m hmem) hk
    dsimp only
    by_cases hfields : BetweenFields k m
    · rw [if_pos hfields] at hdecode
      rw [Decoder.read_eof (d := decoder M) hdecode]
      refine ⟨rfl, iff_of_true rfl ?_⟩
      rintro k' m' ⟨⟩
      exact hfields
    · rw [if_neg hfields] at hdecode
      rw [Decoder.read_error (d := decoder M) hdecode]
      exact ⟨rfl, iff_of_false nofun fun hall => hfields (hall k m rfl)⟩

theorem CutBetweenFields.isTail (h : CutBetweenFields c msgs) (hreadable : ∀ m ∈ msgs, Readable m) :
    IsTail (M := M) (tornBytes c msgs) := by
  unfold tornBytes
  cases htorn : tornRecord c msgs with
  | none => exact isTail_nil
  | some km =>
    obtain ⟨k, m⟩ := km
    obtain ⟨hmem, hk⟩ := tornRecord_some htorn
    have hdecode := decode_take (hreadable m hmem) hk
    rwa [if_pos (h k m htorn)] at hdecode

/-! ## Crash and restart -/

namespace Log

/-- The messages of the last segment. -/
def last (l : Log M) : List M := logOf l.journal l.wal.segmentIndex

/-- The directory after a crash that leaves `c` bytes of the last segment. -/
def crash (l : Log M) (c : Nat) : Dir :=
  { l.wal.flushAndSync.dir with
    segments := l.wal.flushAndSync.dir.segments.insert l.wal.segmentIndex
      ((l.wal.flushAndSync.segment l.wal.segmentIndex).take c) }

/-- The journal without the messages whose records are lost or cut. -/
def surviving (l : Log M) (c : Nat) : List (Nat × M) :=
  (l.journal.filter fun e => e.1 ≠ l.wal.segmentIndex) ++
    (fullRecords c l.last).map fun m => (l.wal.segmentIndex, m)

/-- The log started again after the crash. -/
def recovered (l : Log M) (c : Nat) (maxSegSize : Int) : Log M :=
  ⟨(newFileWALWithOptions (l.crash c) maxSegSize).start, l.surviving c⟩

variable {low : Nat} {l : Log M} {c : Nat} {maxSegSize : Int} {i : Nat}

theorem logOf_surviving_last : logOf (l.surviving c) l.wal.segmentIndex = fullRecords c l.last := by
  rw [surviving, logOf_append]
  have hother :
      logOf (l.journal.filter fun e => e.1 ≠ l.wal.segmentIndex) l.wal.segmentIndex = [] := by
    refine List.eq_nil_iff_forall_not_mem.mpr fun m hm => ?_
    have := (List.mem_filter.mp (mem_logOf.mp hm)).2
    simp at this
  rw [hother, List.nil_append, logOf_map]

theorem logOf_surviving_ne (hi : i ≠ l.wal.segmentIndex) :
    logOf (l.surviving c) i = logOf l.journal i := by
  rw [surviving, logOf_append]
  have hlast : logOf ((fullRecords c l.last).map fun m => (l.wal.segmentIndex, m)) i = [] := by
    refine List.eq_nil_iff_forall_not_mem.mpr fun m hm => ?_
    obtain ⟨x, -, hx⟩ := List.mem_map.mp (mem_logOf.mp hm)
    exact hi (congrArg Prod.fst hx).symm
  rw [hlast, List.append_nil]
  unfold logOf
  rw [List.filter_filter]
  congr 1
  refine List.filter_congr fun e _ => ?_
  by_cases he : e.1 = i
  · simp [he, hi]
  · simp [he]

theorem mem_surviving {e : Nat × M} (he : e ∈ l.surviving c) : e ∈ l.journal := by
  rcases List.mem_append.mp he with he | he
  · exact (List.mem_filter.mp he).1
  · obtain ⟨m, hm, rfl⟩ := List.mem_map.mp he
    exact mem_logOf.mp (mem_of_mem_fullRecords hm)

omit [WalCodec M] in
theorem lookup_crash_ne (hi : i ≠ l.wal.segmentIndex) :
    (l.crash c).segments.lookup i = l.wal.dir.segments.lookup i := by
  show (AList.insert _ _ (AList.insert _ _ _)).lookup i = _
  rw [AList.lookup_insert_ne hi, AList.lookup_insert_ne hi]

namespace Laid

variable (h : l.Laid low)

include h

theorem lookup_crash_last :
    (l.crash c).segments.lookup l.wal.segmentIndex =
      some (records (fullRecords c l.last) ++ tornBytes c l.last) := by
  show (AList.insert _ _ _).lookup _ = _
  rw [AList.lookup_insert, Layout.flushAndSync_current h]
  exact congrArg some (take_records _ c)

theorem crash_spans : (l.crash c).Spans low l.wal.segmentIndex where
  legacy := h.legacy
  mem := fun i => by
    show i ∈ AList.insert _ _ (AList.insert _ _ _) ↔ _
    rw [AList.mem_insert, AList.mem_insert, h.mem]
    have := h.low_le
    omega
  le := h.low_le

variable (c maxSegSize) in
theorem recovered_eq (hnum : l.wal.segmentIndex < 100000) :
    (l.recovered c maxSegSize).wal =
      { (newFileWALWithOptions (l.crash c) maxSegSize : FileWAL M) with
        dir := { l.crash c with
          segments := (l.crash c).segments.insert l.wal.segmentIndex
            (records (fullRecords c l.last) ++ tornBytes c l.last) }
        started := true
        segmentIndex := l.wal.segmentIndex
        segmentSize := (records (fullRecords c l.last) ++ tornBytes c l.last).length
        minIndex := low
        maxIndex := l.wal.segmentIndex
        heightIndex := buildIndex M (l.crash c) low l.wal.segmentIndex } := by
  have hlast : (newFileWALWithOptions (l.crash c) maxSegSize : FileWAL M).segment
      l.wal.segmentIndex = records (fullRecords c l.last) ++ tornBytes c l.last := by
    show ((l.crash c).segments.lookup _).getD [] = _
    rw [h.lookup_crash_last]
    rfl
  rw [recovered, Layout.start_eq rfl h.crash_spans hnum, hlast]
  rfl

variable (c maxSegSize) in
/-- The content of the segments after the restart. -/
theorem segment_recovered (hnum : l.wal.segmentIndex < 100000) :
    (l.recovered c maxSegSize).wal.segment l.wal.segmentIndex =
        records (fullRecords c l.last) ++ tornBytes c l.last ∧
      ∀ i, i ≠ l.wal.segmentIndex →
        (l.recovered c maxSegSize).wal.segment i = l.wal.segment i := by
  rw [h.recovered_eq c maxSegSize hnum]
  unfold FileWAL.segment
  refine ⟨?_, fun i hi => ?_⟩
  · rw [AList.lookup_insert]
    rfl
  · rw [AList.lookup_insert_ne hi, lookup_crash_ne hi]

/-- What the index is built from after the restart survived. -/
theorem mem_surviving_of_read (hreadable : ∀ e ∈ l.journal, Readable e.2) {bytes : Bytes}
    (hi : (l.crash c).segments.lookup i = some bytes) {m : M}
    (hm : m ∈ ((decoder M).read bytes).1) : (i, m) ∈ l.surviving c := by
  have hlast : ∀ x ∈ l.last, Readable x := fun x hx => hreadable _ (mem_logOf.mp hx)
  by_cases hne : i = l.wal.segmentIndex
  · subst hne
    rw [h.lookup_crash_last] at hi
    obtain rfl := Option.some.inj hi
    rw [read_records_append fun x hx => hlast x (mem_of_mem_fullRecords hx),
      (read_tornBytes hlast).1, List.append_nil] at hm
    rw [← mem_logOf, logOf_surviving_last]
    exact hm
  · have hflushed : l.wal.flushAndSync.dir.segments.lookup i = some bytes := by
      rw [lookup_crash_ne hne] at hi
      rw [← hi]
      exact AList.lookup_insert_ne hne
    have hmem := (Layout.flushAndSync h).mem_journal_of_read rfl
      (fun e he => (hreadable e he).fits) hflushed hm
    rw [← mem_logOf, logOf_surviving_ne hne]
    exact mem_logOf.mpr hmem

/-- After the restart only the current segment may be out of order. -/
theorem recovered_outline (hreadable : ∀ e ∈ l.journal, Readable e.2)
    (hnum : l.wal.segmentIndex < 100000) :
    Outline low (l.recovered c maxSegSize).wal (l.surviving c) := by
  have hsegment := (h.segment_recovered c maxSegSize hnum).2
  have hle : ∀ e ∈ l.surviving c, e.1 ≤ l.wal.segmentIndex :=
    fun e he => h.le e (mem_surviving he)
  have hsorted : (l.surviving c).Pairwise fun e₁ e₂ => e₁.1 ≤ e₂.1 := by
    refine List.pairwise_append.mpr ⟨h.sorted.filter _, ?_, fun a ha b hb => ?_⟩
    · exact List.pairwise_map.mpr (List.pairwise_of_forall fun _ _ => le_rfl)
    · obtain ⟨m, -, rfl⟩ := List.mem_map.mp hb
      exact h.le a (List.mem_filter.mp ha).1
  rw [h.recovered_eq c maxSegSize hnum] at hsegment ⊢
  exact
    { legacy := h.legacy
      mem := fun i => by
        show i ∈ AList.insert _ _ _ ↔ _ ∧ i ≤ l.wal.segmentIndex
        rw [AList.mem_insert, h.crash_spans.mem]
        have := h.low_le
        omega
      closed := fun i hlow hi => by
        rw [logOf_surviving_ne (show i ≠ l.wal.segmentIndex from hi.ne), hsegment i hi.ne]
        exact h.closed i hlow hi
      low_le := h.low_le
      minIndex_le := le_rfl
      maxIndex_eq := rfl
      stopped := nofun
      sorted := hsorted
      le := hle
      encoded := fun e he => h.encoded e (mem_surviving he)
      index := fun height k hlookup => by
        obtain ⟨-, bytes, hbytes, m, hm, hends⟩ := Layout.marked_of_lookup hlookup
        refine ⟨?_, m, h.mem_surviving_of_read hreadable hbytes hm, hends⟩
        refine ((h.crash_spans (c := c)).mem k |>.mp (AList.lookup_isSome.mp ?_)).1
        rw [hbytes]
        rfl }

variable (c maxSegSize) in
theorem recovered_current (hnum : l.wal.segmentIndex < 100000) :
    (l.recovered c maxSegSize).wal.segmentIndex = l.wal.segmentIndex ∧
      (l.recovered c maxSegSize).wal.segment l.wal.segmentIndex ++
          (l.recovered c maxSegSize).wal.buf =
        records (logOf (l.surviving c) l.wal.segmentIndex) ++ tornBytes c l.last := by
  have hbuf : (l.recovered c maxSegSize).wal.buf = [] := by
    rw [h.recovered_eq c maxSegSize hnum]
    rfl
  refine ⟨by rw [h.recovered_eq c maxSegSize hnum], ?_⟩
  rw [(h.segment_recovered c maxSegSize hnum).1, hbuf, logOf_surviving_last, List.append_nil]

/-- Nothing is out of order if the cut is between two records. -/
theorem recovered_laid (hreadable : ∀ e ∈ l.journal, Readable e.2)
    (hnum : l.wal.segmentIndex < 100000) (hcut : CutBetweenRecords c l.last) :
    (l.recovered c maxSegSize).Laid low := by
  obtain ⟨hindex, hcurrent⟩ := h.recovered_current c maxSegSize hnum
  refine { h.recovered_outline hreadable hnum with current := ?_ }
  rw [hindex, hcurrent, hcut.tornBytes_eq, List.append_nil]
  rfl

/-- Nor is it after a rotation, if the leftover bytes are taken for the end of the segment. -/
theorem recovered_rotate (hreadable : ∀ e ∈ l.journal, Readable e.2)
    (hnum : l.wal.segmentIndex < 100000) (hcut : CutBetweenFields c l.last) :
    Layout low (l.recovered c maxSegSize).wal.rotate (l.surviving c) := by
  obtain ⟨hindex, hcurrent⟩ := h.recovered_current c maxSegSize hnum
  refine (h.recovered_outline hreadable hnum).rotate
    (hcut.isTail fun m hm => hreadable _ (mem_logOf.mp hm)) ?_
  rw [hindex, hcurrent]

end Laid

/-! ## Reading after the restart -/

omit [WalCodec M] in
theorem indices_eq {high : Nat} (h : low ≤ high) :
    indices low high = List.range' low (high - low) ++ [high] := by
  rw [indices, Nat.succ_sub h, List.range'_concat]
  congr 2
  omega

end Log

/-- Segments that are read to their end do not change how the following ones are read. -/
theorem readSegments_append {dir : Dir} (ys : List Nat) : ∀ {xs : List Nat},
    (dir.readSegments M xs).2 = none →
    dir.readSegments M (xs ++ ys) =
      ((dir.readSegments M xs).1 ++ (dir.readSegments M ys).1, (dir.readSegments M ys).2)
  | [], _ => rfl
  | i :: xs, h => by
    rw [Dir.readSegments] at h
    rw [List.cons_append, Dir.readSegments, Dir.readSegments]
    cases hlookup : dir.segments.lookup i with
    | none =>
      rw [hlookup] at h
      cases h
    | some bytes =>
      rw [hlookup] at h
      dsimp only at h ⊢
      cases hread : (decoder M).read bytes with
      | mk msgs error =>
        rw [hread] at h
        cases error with
        | some e => cases h
        | none =>
          dsimp only at h ⊢
          rw [readSegments_append ys h, List.append_assoc]

namespace Log

variable {low : Nat} {l : Log M} {c : Nat} {maxSegSize : Int}

variable (c maxSegSize) in
/-- The closed segments are read to their end. -/
theorem Laid.read_recovered (h : l.Laid low) (hreadable : ∀ e ∈ l.journal, Readable e.2)
    (hnum : l.wal.segmentIndex < 100000) {i : Nat} (hlow : low ≤ i) (hi : i < l.wal.segmentIndex) :
    (decoder M).read ((l.recovered c maxSegSize).wal.segment i) =
      (logOf (l.surviving c) i, none) := by
  obtain ⟨hindex, -⟩ := h.recovered_current c maxSegSize hnum
  have hmem : ∀ m ∈ logOf (l.surviving c) i, Readable m :=
    fun m hm => hreadable _ (mem_surviving (mem_logOf.mp hm))
  have houtline : Outline low (l.recovered c maxSegSize).wal (l.surviving c) :=
    h.recovered_outline hreadable hnum
  obtain ⟨tail, htail, heq⟩ := houtline.closed i hlow (by omega)
  rw [heq]
  exact (read_records_tail (fun m hm => (hmem m hm).fits) htail).trans (read_records hmem)

variable (c maxSegSize) in
/-- The last segment ends with what the cut left. -/
theorem Laid.read_recovered_last (h : l.Laid low) (hreadable : ∀ e ∈ l.journal, Readable e.2)
    (hnum : l.wal.segmentIndex < 100000) :
    (decoder M).read ((l.recovered c maxSegSize).wal.segment l.wal.segmentIndex) =
      (logOf (l.surviving c) l.wal.segmentIndex, ((decoder M).read (tornBytes c l.last)).2) := by
  have hlast : ∀ m ∈ l.last, Readable m := fun m hm => hreadable _ (mem_logOf.mp hm)
  rw [(h.segment_recovered c maxSegSize hnum).1, logOf_surviving_last,
    read_records_append fun m hm => hlast m (mem_of_mem_fullRecords hm),
    (read_tornBytes hlast).1, List.append_nil]

variable (c maxSegSize) in
/-- **What was written completely is read back after the restart**, without an error exactly
if the cut is not inside a field. -/
theorem Laid.recovered_read (h : l.Laid low) (hreadable : ∀ e ∈ l.journal, Readable e.2)
    (hnum : l.wal.segmentIndex < 100000) :
    ∃ error, (l.recovered c maxSegSize).wal.dir.openWALForReading M =
        .ok ((l.recovered c maxSegSize).kept low, error) ∧
      (error = none ↔ CutBetweenFields c l.last) := by
  have houtline : Outline low (l.recovered c maxSegSize).wal (l.recovered c maxSegSize).journal :=
    h.recovered_outline hreadable hnum
  obtain ⟨hindex, -⟩ := h.recovered_current c maxSegSize hnum
  have hlookup : ∀ i ∈ indices low l.wal.segmentIndex,
      (l.recovered c maxSegSize).wal.dir.segments.lookup i =
        some ((l.recovered c maxSegSize).wal.segment i) := by
    rw [← hindex]
    exact fun i hi => lookup_eq houtline hi
  rw [openWALForReading_eq houtline (hindex ▸ hnum), ← flatMap_logOf_eq houtline, hindex]
  rw [indices_eq h.low_le] at hlookup ⊢
  have hclosed : ∀ i ∈ List.range' low (l.wal.segmentIndex - low),
      (decoder M).read ((l.recovered c maxSegSize).wal.segment i) =
        (logOf (l.surviving c) i, none) := by
    intro i hi
    rw [List.mem_range'_1] at hi
    exact h.read_recovered c maxSegSize hreadable hnum hi.1 (by omega)
  obtain ⟨hiff, heq⟩ := readSegments_eof (M := M) (l.recovered c maxSegSize).wal.segment
    fun i hi => hlookup i (List.mem_append_left _ hi)
  have heof := hiff.mpr fun i hi => by rw [hclosed i hi]
  rw [readSegments_append _ heof, heq heof, List.flatMap_append,
    List.flatMap_congr fun i hi => by rw [hclosed i hi]]
  have hlast : ∀ m ∈ l.last, Readable m := fun m hm => hreadable _ (mem_logOf.mp hm)
  refine ⟨((decoder M).read (tornBytes c l.last)).2, ?_, (read_tornBytes hlast).2⟩
  rw [Dir.readSegments, hlookup _ (List.mem_append_right _ (List.mem_singleton.mpr rfl))]
  dsimp only
  rw [h.read_recovered_last c maxSegSize hreadable hnum]
  cases ((decoder M).read (tornBytes c l.last)).2 with
  | none => simp [Dir.readSegments, recovered]
  | some e => simp [recovered]

/-! ## Writing after the restart -/

/-- The messages that `WriteSync` accepts. -/
def accepted (msgs : List M) : List M := msgs.filter fun m => (WalCodec.marshal m).isSome

/-- What a started log with an empty buffer keeps when messages are written. -/
structure Writes (low : Nat) (l l' : Log M) (msgs : List M) : Prop where
  laid : l'.Laid low
  started : l'.wal.started = true
  buf : l'.wal.buf = []
  kept : l'.kept low = l.kept low ++ accepted msgs
  new : ∀ e ∈ l'.journal, e ∈ l.journal ∨ e.2 ∈ msgs

theorem Laid.writeSync (h : l.Laid low) (hstarted : l.wal.started = true) (hbuf : l.wal.buf = [])
    (m : M) : Writes low l (l.step (.writeSync m)) [m] := by
  have hlaid : (l.step (.writeSync m)).Laid low := accept_laid (Layout.writeSync h m)
  have hrotated : l.wal.rotateIfFull.buf = [] := by
    unfold FileWAL.rotateIfFull
    split
    · rfl
    · exact hbuf
  have hstep : (l.step (.writeSync m)) = l.accept m (l.wal.writeSync m) := rfl
  cases hdata : WalCodec.marshal m with
  | none =>
    have hwrite : l.wal.writeSync m = (l.wal.rotateIfFull, .error .marshalFailed) := by
      rw [FileWAL.writeSync, FileWAL.write, if_pos hstarted, hdata]
    rw [hwrite] at hstep
    rw [hstep] at hlaid ⊢
    exact
      { laid := hlaid
        started := (Layout.started_rotateIfFull l.wal).trans hstarted
        buf := hrotated
        kept := by simp [accept, accepted, hdata, Log.kept]
        new := fun e he => .inl he }
  | some data =>
    have hwrite : l.wal.writeSync m =
        ((l.wal.rotateIfFull.append m data).flushAndSync, .ok ()) := by
      rw [FileWAL.writeSync, FileWAL.write, if_pos hstarted, hdata]
    rw [hwrite] at hstep
    have hlow := hlaid.low_le
    rw [hstep] at hlaid hlow ⊢
    have hlow' : low ≤ l.wal.rotateIfFull.segmentIndex := hlow
    exact
      { laid := hlaid
        started := (Layout.started_rotateIfFull l.wal).trans hstarted
        buf := rfl
        kept := by
          simp [accept, accepted, hdata, Log.kept, FileWAL.flushAndSync, FileWAL.append, hlow']
        new := fun e he => by
          rcases List.mem_append.mp he with he | he
          · exact .inl he
          · rw [List.mem_singleton.mp he]
            exact .inr (List.mem_singleton.mpr rfl) }

/-- Message after message. -/
theorem Laid.run_writeSync : ∀ (msgs : List M) {l : Log M}, l.Laid low →
    l.wal.started = true → l.wal.buf = [] → Writes low l (l.run (msgs.map .writeSync)) msgs
  | [], l, h, hstarted, hbuf =>
    { laid := h
      started := hstarted
      buf := hbuf
      kept := (List.append_nil _).symm
      new := fun e he => .inl he }
  | m :: msgs, l, h, hstarted, hbuf => by
    have hone := h.writeSync hstarted hbuf m
    have hrest := run_writeSync msgs hone.laid hone.started hone.buf
    exact
      { laid := hrest.laid
        started := hrest.started
        buf := hrest.buf
        kept := by
          refine hrest.kept.trans ?_
          rw [hone.kept, List.append_assoc]
          simp only [accepted, ← List.filter_append, List.singleton_append]
        new := fun e he => by
          rcases hrest.new e he with he | he
          · rcases hone.new e he with he | he
            · exact .inl he
            · exact .inr (List.mem_cons.mpr (.inl (List.mem_singleton.mp he)))
          · exact .inr (List.mem_cons_of_mem _ he) }

/-- What was written is read back. -/
theorem Writes.read {l' : Log M} {msgs : List M} (h : Writes low l l' msgs)
    (hold : ∀ e ∈ l.journal, msgSize e.2 < maxMsgSize) (hnew : ∀ m ∈ msgs, msgSize m < maxMsgSize)
    (hnum : l'.wal.segmentIndex < 100000) :
    l'.wal.dir.openWALForReading M = .ok (l.kept low ++ accepted msgs, none) := by
  have hsize : ∀ e ∈ l'.journal, msgSize e.2 < maxMsgSize := fun e he =>
    (h.new e he).elim (hold e) (hnew e.2)
  rw [← h.kept]
  exact (h.laid.openWALForReading_iff (fun e he => (hsize e he).trans (by decide)) h.buf hnum).mpr
    fun e he _ => hsize e he

/-- What is left of the last segment is full, so that the first write starts a new one. -/
def LeavesFull (l : Log M) (c : Nat) (maxSegSize : Int) : Prop :=
  (newFileWALWithOptions (l.crash c) maxSegSize : FileWAL M).maxSegSize ≤
    min c (records l.last).length

omit [WalCodec M] in
theorem maxSegSize_pos (dir : Dir) (maxSegSize : Int) :
    0 < (newFileWALWithOptions dir maxSegSize : FileWAL M).maxSegSize := by
  show 0 < if maxSegSize ≤ 0 then defaultMaxSegSize else maxSegSize.toNat
  split
  · decide
  · omega

/-- A write to a full segment is a write after a rotation. -/
theorem run_rotate (hstarted : l.wal.started = true) (hfull : l.wal.maxSegSize ≤ l.wal.segmentSize)
    (hnext : l.wal.rotate.segmentSize < l.wal.maxSegSize) (m : M) (msgs : List M) :
    l.run ((m :: msgs).map .writeSync) =
      (⟨l.wal.rotate, l.journal⟩ : Log M).run ((m :: msgs).map .writeSync) := by
  have hrotate : l.wal.rotateIfFull = l.wal.rotate := if_pos hfull
  have hagain : l.wal.rotate.rotateIfFull = l.wal.rotate := if_neg (not_le.mpr hnext)
  have hwrite : l.wal.writeSync m = l.wal.rotate.writeSync m := by
    unfold FileWAL.writeSync FileWAL.write
    rw [hrotate, hagain, if_pos hstarted, if_pos (show l.wal.rotate.started = true from hstarted)]
  show (l.accept m (l.wal.writeSync m)).run _ = _
  rw [hwrite]
  rfl

/-- **What is written after the restart is read back** if the cut left no part of a record,
or a part that reads as the end of a segment that is not written to any more. -/
theorem Laid.recovered_write (h : l.Laid low) (hreadable : ∀ e ∈ l.journal, Readable e.2)
    (hnum : l.wal.segmentIndex < 100000)
    (hcut : CutBetweenRecords c l.last ∨ CutBetweenFields c l.last ∧ l.LeavesFull c maxSegSize)
    {msgs : List M} (hsize : ∀ m ∈ msgs, msgSize m < maxMsgSize)
    (hlast : ((l.recovered c maxSegSize).run (msgs.map .writeSync)).wal.segmentIndex < 100000) :
    ((l.recovered c maxSegSize).run (msgs.map .writeSync)).wal.dir.openWALForReading M =
      .ok ((l.recovered c maxSegSize).kept low ++ accepted msgs, none) := by
  have hold : ∀ e ∈ (l.recovered c maxSegSize).journal, msgSize e.2 < maxMsgSize :=
    fun e he => (hreadable e (mem_surviving he)).size
  have hstarted : (l.recovered c maxSegSize).wal.started = true := by
    rw [h.recovered_eq c maxSegSize hnum]
  rcases hcut with hcut | ⟨hcut, hfull⟩
  · have hbuf : (l.recovered c maxSegSize).wal.buf = [] := by
      rw [h.recovered_eq c maxSegSize hnum]
      rfl
    exact ((h.recovered_laid hreadable hnum hcut).run_writeSync msgs hstarted hbuf).read
      hold hsize hlast
  · cases msgs with
    | nil =>
      obtain ⟨error, hread, hnone⟩ :=
        h.recovered_read c maxSegSize hreadable hnum
      rw [hnone.mpr hcut] at hread
      simpa [accepted, run] using hread
    | cons m msgs =>
      have hrotate : (l.recovered c maxSegSize).run ((m :: msgs).map .writeSync) =
          (⟨(l.recovered c maxSegSize).wal.rotate, l.surviving c⟩ : Log M).run
            ((m :: msgs).map .writeSync) := by
        refine run_rotate hstarted ?_ ?_ m msgs
        · rw [h.recovered_eq c maxSegSize hnum, ← take_records, List.length_take]
          exact hfull
        · show ((l.recovered c maxSegSize).wal.flushAndSync.segment _).length < _
          rw [(h.recovered_outline hreadable hnum).segment_next, h.recovered_eq c maxSegSize hnum]
          exact maxSegSize_pos (M := M) (l.crash c) maxSegSize
      rw [hrotate] at hlast ⊢
      have hlaid : (⟨(l.recovered c maxSegSize).wal.rotate, l.surviving c⟩ : Log M).Laid low :=
        h.recovered_rotate hreadable hnum hcut
      exact (hlaid.run_writeSync (m :: msgs) hstarted rfl).read hold hsize hlast

/-- The messages whose full record precedes the cut. -/
def survivors (l : Log M) (c : Nat) : List M :=
  ((l.surviving c).filter fun e => e.1 ∈ l.wal.dir.segments).map Prod.snd

theorem Laid.survivors_eq (h : l.Laid low) :
    l.survivors c = (l.recovered c maxSegSize).kept low := by
  unfold survivors kept
  congr 1
  refine List.filter_congr fun e he => ?_
  have := h.le e (mem_surviving he)
  rw [decide_eq_decide, h.mem]
  omega

end Log

/-- Any log whose messages are below the size limit of the reader, cut after any number of
bytes of its last segment and started again. The messages whose full record precedes the
cut are read back, and then the end of the log or, if the cut is inside a field, an error.
The messages accepted afterwards follow them if the cut is between two records, or between
two fields and the first write starts a new segment. -/
theorem torn_tail_recovery {low : Nat} {l : Log M} (h : l.Laid low)
    (hsize : ∀ e ∈ l.journal, msgSize e.2 < maxMsgSize) (hnum : l.wal.segmentIndex < 100000)
    (c : Nat) (maxSegSize : Int) :
    (∃ error, (l.recovered c maxSegSize).wal.dir.openWALForReading M =
        .ok (l.survivors c, error) ∧ (error = none ↔ CutBetweenFields c l.last)) ∧
    (CutBetweenRecords c l.last ∨ CutBetweenFields c l.last ∧ l.LeavesFull c maxSegSize →
      ∀ msgs : List M, (∀ m ∈ msgs, msgSize m < maxMsgSize) →
        ((l.recovered c maxSegSize).run (msgs.map .writeSync)).wal.segmentIndex < 100000 →
        ((l.recovered c maxSegSize).run (msgs.map .writeSync)).wal.dir.openWALForReading M =
          .ok (l.survivors c ++ Log.accepted msgs, none)) := by
  have hreadable : ∀ e ∈ l.journal, Readable e.2 := fun e he => ⟨h.encoded e he, hsize e he⟩
  rw [h.survivors_eq]
  exact ⟨h.recovered_read c maxSegSize hreadable hnum,
    fun hcut msgs hmsgs hlast => h.recovered_write hreadable hnum hcut hmsgs hlast⟩

section logs

attribute [local instance] markCodec

/-- Two bytes are left of the only record. The message written after the restart is accepted
and lost. -/
theorem write_after_torn_record_lost :
    ((((Log.new Mark 99).run [.writeSync ⟨1, false⟩]).recovered 2 99).wal.writeSync
      ⟨2, false⟩).2 = .ok () ∧
    ∃ e, (((Log.new Mark 99).run [.writeSync ⟨1, false⟩]).recovered 2 99 |>.run
      [.writeSync ⟨2, false⟩]).wal.dir.openWALForReading Mark = .ok ([], some e) := by
  have hscan : (((Log.new Mark 99).run [.writeSync ⟨1, false⟩]).recovered 2 99 |>.run
      [.writeSync ⟨2, false⟩]).wal.dir.scan = [0] := by decide +kernel
  have hlegacy : (((Log.new Mark 99).run [.writeSync ⟨1, false⟩]).recovered 2 99 |>.run
      [.writeSync ⟨2, false⟩]).wal.dir.legacy = none := by decide +kernel
  refine ⟨by decide +kernel, .crcMismatch 131584 7, ?_⟩
  rw [Dir.openWALForReading, hlegacy, Dir.findSegments, hscan, List.mergeSort_singleton]
  decide +kernel

/-- Of two records the first one is left, and a third one follows it. -/
theorem torn_tail_recovery_mark :
    (((Log.new Mark 99).run [.write ⟨1, false⟩, .write ⟨2, false⟩]).recovered 10 99 |>.run
      [.writeSync ⟨3, false⟩]).wal.dir.openWALForReading Mark =
        .ok ([⟨1, false⟩, ⟨3, false⟩], none) := by
  have hsize : ∀ e ∈ ((Log.new Mark 99).run [.write ⟨1, false⟩, .write ⟨2, false⟩]).journal,
      msgSize e.2 < maxMsgSize := by decide +kernel
  obtain ⟨low, -, hlaid, -⟩ := Log.run_laid (M := Mark) [.write ⟨1, false⟩, .write ⟨2, false⟩]
    (Log.new_laid 99) ⟨nofun, nofun, trivial⟩ fun e he => (hsize e he).trans (by decide)
  have htorn : tornRecord 10
      ((Log.new Mark 99).run [.write ⟨1, false⟩, .write ⟨2, false⟩]).last =
        some (0, ⟨2, false⟩) := by decide +kernel
  have hcut : CutBetweenRecords 10
      ((Log.new Mark 99).run [.write ⟨1, false⟩, .write ⟨2, false⟩]).last := by
    intro k m hk
    rw [htorn] at hk
    cases hk
    rfl
  have hnum : ((Log.new Mark 99).run
      [.write ⟨1, false⟩, .write ⟨2, false⟩]).wal.segmentIndex < 100000 := by decide +kernel
  have hsurvivors : ((Log.new Mark 99).run
      [.write ⟨1, false⟩, .write ⟨2, false⟩]).survivors 10 = [⟨1, false⟩] := by decide +kernel
  have hread := (torn_tail_recovery hlaid hsize hnum 10 99).2 (.inl hcut) [⟨3, false⟩]
    (by decide +kernel) (by decide +kernel)
  rw [hsurvivors] at hread
  exact hread

end logs

end Leaderberry.Wal
