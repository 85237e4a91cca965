import Leaderberry.Wal.Log

/-!
# What a search finds

`SearchForEndHeight` returns a reader of the segment that holds the marker, and of that
segment only. What was written after the marker is all in it exactly if no message went to
a later segment (`Log.Laid.sees_rest_iff`).
-/

namespace Leaderberry.Wal

open RecordStream FileWAL

variable {M : Type} [WalCodec M]

namespace Layout

variable {low : Nat} {w : FileWAL M} {journal : List (Nat × M)} {height : Int} {k : Nat} {m : M}
  {reader : Bytes}

section

variable (h : Layout low w journal)

include h

/-- A segment without a marker: the search goes on exactly if the segment is readable. -/
theorem search_missing_iff (hbuf : w.buf = []) (hfits : ∀ e ∈ journal, Fits e.2) {i : Nat}
    (hnone : ∀ m ∈ logOf journal i, endsHeight height m = false) :
    (∀ reader, w.searchSegmentForEndHeight i height ≠ .found reader) ∧
      (w.searchSegmentForEndHeight i height = .missing ↔
        (low ≤ i → i ≤ w.segmentIndex → ∀ m ∈ logOf journal i, Readable m)) := by
  unfold searchSegmentForEndHeight
  cases hbytes : w.dir.segments.lookup i with
  | none =>
    have hout := AList.lookup_eq_none.mp hbytes
    rw [h.mem] at hout
    exact ⟨nofun, iff_of_true rfl fun hlow hle => absurd ⟨hlow, hle⟩ hout⟩
  | some bytes =>
    obtain ⟨hlow, hle, -⟩ := h.segment_eq hbuf hbytes
    have hseek := Decoder.seek_of_forall (d := decoder M) (p := endsHeight height) bytes
      fun m hm => hnone m (mem_logOf.mpr (h.mem_journal_of_read hbuf hfits hbytes hm))
    dsimp only
    rw [hseek, ← read_records_eof_iff fun m hm => hfits _ (mem_logOf.mp hm),
      ← h.read_segment hbuf hfits hbytes]
    cases ((decoder M).read bytes).2 with
    | none => exact ⟨nofun, iff_of_true rfl fun _ _ => rfl⟩
    | some e => exact ⟨nofun, iff_of_false nofun fun hall => nomatch hall hlow hle⟩

/-- A readable segment with a marker: the search finds one. -/
theorem search_exists (hbuf : w.buf = []) (hfits : ∀ e ∈ journal, Fits e.2) (hlow : low ≤ k)
    (hk : k ≤ w.segmentIndex) (hreadable : ∀ x ∈ logOf journal k, Readable x)
    (hm : ∃ m ∈ logOf journal k, endsHeight height m = true) :
    ∃ reader, w.searchSegmentForEndHeight k height = .found reader := by
  obtain ⟨bytes, hbytes⟩ :=
    Option.isSome_iff_exists.mp (AList.lookup_isSome.mpr ((h.mem k).mpr ⟨hlow, hk⟩))
  have hread := (h.read_segment hbuf hfits hbytes).trans (read_records hreadable)
  unfold searchSegmentForEndHeight
  rw [hbytes]
  exact Decoder.seek_of_exists bytes (by rw [hread]; exact hm)

/-- The segment of the marker: a reader of what follows, if the segment is readable. -/
theorem search_found (hbuf : w.buf = []) (hfits : ∀ e ∈ journal, Fits e.2) {before after : List M}
    (hlow : low ≤ k) (hk : k ≤ w.segmentIndex) (hlog : logOf journal k = before ++ m :: after)
    (hm : endsHeight height m = true) (hbefore : ∀ x ∈ before, endsHeight height x = false)
    (hreadable : ∀ x ∈ logOf journal k, Readable x) :
    ∃ reader, w.searchSegmentForEndHeight k height = .found reader ∧
      (decoder M).read reader = (after, none) := by
  obtain ⟨bytes, hbytes⟩ :=
    Option.isSome_iff_exists.mp (AList.lookup_isSome.mpr ((h.mem k).mpr ⟨hlow, hk⟩))
  have hread := (h.read_segment hbuf hfits hbytes).trans (read_records hreadable)
  rw [hlog] at hread
  unfold searchSegmentForEndHeight
  rw [hbytes]
  exact Decoder.seek_read hm bytes hbefore hread

/-- Conversely, a reader that sees everything up to the end comes from a readable segment. -/
theorem readable_of_found (hbuf : w.buf = []) (hfits : ∀ e ∈ journal, Fits e.2)
    {before after rest : List M} (hlog : logOf journal k = before ++ m :: after)
    (hm : endsHeight height m = true) (hbefore : ∀ x ∈ before, endsHeight height x = false)
    (hfound : w.searchSegmentForEndHeight k height = .found reader)
    (hread : (decoder M).read reader = (rest, none)) :
    (∀ x ∈ logOf journal k, Readable x) ∧ rest = after := by
  unfold searchSegmentForEndHeight at hfound
  split at hfound
  · cases hfound
  rename_i bytes hbytes
  obtain ⟨before', m', -, -, hread'⟩ := Decoder.seek_found _ hfound
  rw [hread] at hread'
  have hsegment := h.read_segment hbuf hfits hbytes
  have hreadable := (read_records_eof_iff fun x hx => hfits _ (mem_logOf.mp hx)).mp
    (congrArg Prod.snd (hsegment.symm.trans hread'))
  rw [read_records hreadable, hlog] at hsegment
  obtain ⟨reader', hfound', hafter⟩ := Decoder.seek_read hm bytes hbefore hsegment
  rw [hfound] at hfound'
  cases hfound'
  rw [hread] at hafter
  exact ⟨hreadable, congrArg Prod.fst hafter⟩

end

/-- A scan returns the reader of the first segment that is not skipped. -/
theorem scanSegments_found_iff : ∀ n lo : Nat,
    (w.scanSegments height (List.range' lo n)).2 = .ok (some reader) ↔
      ∃ k, lo ≤ k ∧ k < lo + n ∧ w.searchSegmentForEndHeight k height = .found reader ∧
        ∀ i, lo ≤ i → i < k → w.searchSegmentForEndHeight i height = .missing
  | 0, lo => by
    refine iff_of_false (fun h => by cases h) ?_
    rintro ⟨k, hle, hlt, -⟩
    omega
  | n + 1, lo => by
    rw [List.range'_succ, FileWAL.scanSegments]
    -- The first segment decides, unless it is skipped.
    have hfirst : w.searchSegmentForEndHeight lo height ≠ .missing →
        ((∃ k, lo ≤ k ∧ k < lo + (n + 1) ∧
          w.searchSegmentForEndHeight k height = .found reader ∧
          ∀ i, lo ≤ i → i < k → w.searchSegmentForEndHeight i height = .missing) ↔
        w.searchSegmentForEndHeight lo height = .found reader) := by
      intro hne
      refine ⟨?_, fun hfound => ⟨lo, le_rfl, by omega, hfound, by omega⟩⟩
      rintro ⟨k, hle, -, hfound, hbefore⟩
      rcases hle.eq_or_lt with rfl | hlt
      · exact hfound
      · exact absurd (hbefore lo le_rfl hlt) hne
    cases hlo : w.searchSegmentForEndHeight lo height with
    | failed e =>
      rw [hfirst (by simp [hlo]), hlo]
      exact iff_of_false (fun h => by cases h) fun h => by cases h
    | found r =>
      rw [hfirst (by simp [hlo]), hlo]
      simp
    | missing =>
      dsimp only
      rw [scanSegments_found_iff n (lo + 1)]
      constructor
      · rintro ⟨k, hle, hlt, hfound, hbefore⟩
        refine ⟨k, by omega, by omega, hfound, fun i hi hik => ?_⟩
        rcases hi.eq_or_lt with rfl | hi
        · exact hlo
        · exact hbefore i hi hik
      · rintro ⟨k, hle, hlt, hfound, hbefore⟩
        have hne : lo ≠ k := by
          rintro rfl
          rw [hlo] at hfound
          cases hfound
        exact ⟨k, by omega, by omega, hfound, fun i hi hik => hbefore i (by omega) hik⟩

/-- A search looks into the segment of the index, and scans if nothing is there. -/
theorem searchForEndHeight_found_iff (hstarted : w.started = true) (hle : w.minIndex ≤ w.maxIndex) :
    (w.searchForEndHeight height).2 = .ok (some reader) ↔
      (∃ k, w.heightIndex.lookup height = some k ∧
        w.flushAndSync.searchSegmentForEndHeight k height = .found reader) ∨
      (∀ k, w.heightIndex.lookup height = some k →
        w.flushAndSync.searchSegmentForEndHeight k height = .missing) ∧
      ∃ k, w.minIndex ≤ k ∧ k ≤ w.maxIndex ∧
        w.flushAndSync.searchSegmentForEndHeight k height = .found reader ∧
        ∀ i, w.minIndex ≤ i → i < k →
          w.flushAndSync.searchSegmentForEndHeight i height = .missing := by
  have hscan : (w.flushAndSync.scanSegments height (indices w.minIndex w.maxIndex)).2 =
        .ok (some reader) ↔
      ∃ k, w.minIndex ≤ k ∧ k ≤ w.maxIndex ∧
        w.flushAndSync.searchSegmentForEndHeight k height = .found reader ∧
        ∀ i, w.minIndex ≤ i → i < k →
          w.flushAndSync.searchSegmentForEndHeight i height = .missing := by
    refine (scanSegments_found_iff _ _).trans (exists_congr fun k => ?_)
    rw [show w.minIndex + (w.maxIndex + 1 - w.minIndex) = w.maxIndex + 1 by omega,
      Nat.lt_succ_iff]
  unfold FileWAL.searchForEndHeight
  have hindex : w.flushAndSync.heightIndex = w.heightIndex := rfl
  rw [if_pos hstarted, ← hscan]
  dsimp only
  rw [hindex]
  cases w.heightIndex.lookup height with
  | none =>
    refine ⟨fun hok => .inr ⟨fun _ h => (by cases h), hok⟩, ?_⟩
    rintro (⟨k, hk, -⟩ | ⟨-, hok⟩)
    · cases hk
    · exact hok
  | some k =>
    dsimp only
    cases hk : w.flushAndSync.searchSegmentForEndHeight k height with
    | failed e => simp [hk]
    | found r => simp [hk]
    | missing =>
      refine ⟨fun hok => .inr ⟨?_, hok⟩, ?_⟩
      · rintro i ⟨⟩
        exact hk
      · rintro (⟨i, ⟨⟩, hfound⟩ | ⟨-, hok⟩)
        · rw [hk] at hfound
          cases hfound
        · exact hok

/-- Where only segment `k` holds a marker, the search returns what that segment gives, and
needs the segments before it where the index does not know the height. -/
theorem searchForEndHeight_only_iff (h : Layout low w journal) (hfits : ∀ e ∈ journal, Fits e.2)
    (hstarted : w.started = true) (hlow : low ≤ k) (hk : k ≤ w.segmentIndex)
    (hnone : ∀ i, i ≠ k → ∀ x ∈ logOf journal i, endsHeight height x = false) (reader : Bytes) :
    (w.searchForEndHeight height).2 = .ok (some reader) ↔
      w.flushAndSync.searchSegmentForEndHeight k height = .found reader ∧
      (w.heightIndex.lookup height = none → ∀ i, w.minIndex ≤ i → i < k →
        w.flushAndSync.searchSegmentForEndHeight i height = .missing) := by
  have hunique : ∀ i r, w.flushAndSync.searchSegmentForEndHeight i height = .found r → i = k := by
    intro i r hr
    by_contra hi
    exact (h.flushAndSync.search_missing_iff rfl hfits (hnone i hi)).1 r hr
  have hmin := h.minIndex_le
  have hmax := h.maxIndex_eq
  -- The index knows no other segment.
  have hindex : ∀ i, w.heightIndex.lookup height = some i → i = k := by
    intro i hi
    obtain ⟨-, x, hx, hends⟩ := h.index height i hi
    by_contra hne
    have := hnone i hne x (mem_logOf.mpr hx)
    rw [hends] at this
    cases this
  rw [searchForEndHeight_found_iff hstarted (by omega)]
  constructor
  · rintro (⟨i, hi, hfound⟩ | ⟨hmissing, i, -, -, hfound, hscan⟩)
    · obtain rfl := hindex i hi
      exact ⟨hfound, fun hnone => by rw [hnone] at hi; cases hi⟩
    · obtain rfl := hunique i reader hfound
      exact ⟨hfound, fun _ => hscan⟩
  · rintro ⟨hfound, hscan⟩
    cases hlookup : w.heightIndex.lookup height with
    | none => exact .inr ⟨fun _ h => (by cases h), k, by omega, by omega, hfound, hscan hlookup⟩
    | some i =>
      obtain rfl := hindex i hlookup
      exact .inl ⟨i, rfl, hfound⟩

/-- What follows the only marker is seen exactly if it is all in the segment of the marker,
the segment can be read, and, where the index does not know the marker, the segments before
it can be read too. -/
theorem sees_rest_iff (h : Layout low w journal) (hfits : ∀ e ∈ journal, Fits e.2)
    (hstarted : w.started = true) {before after : List (Nat × M)}
    (hjournal : journal = before ++ (k, m) :: after) (hlow : low ≤ k)
    (hm : endsHeight height m = true)
    (honly : ∀ e ∈ before ++ after, endsHeight height e.2 = false) :
    (∃ reader, (w.searchForEndHeight height).2 = .ok (some reader) ∧
      (decoder M).read reader = (after.map Prod.snd, none)) ↔
    (∀ e ∈ after, e.1 = k) ∧ (∀ e ∈ journal, e.1 = k → Readable e.2) ∧
      (w.heightIndex.lookup height = none →
        ∀ e ∈ journal, low ≤ e.1 → e.1 < k → Readable e.2) := by
  have hflushed := h.flushAndSync
  have hk : k ≤ w.segmentIndex := h.le (k, m) (by rw [hjournal]; simp)
  have hlog : logOf journal k = logOf before k ++ m :: logOf after k := by
    rw [hjournal, logOf_append]
    simp [logOf]
  have hbefore : ∀ x ∈ logOf before k, endsHeight height x = false :=
    fun x hx => honly _ (List.mem_append_left _ (mem_logOf.mp hx))
  -- No other segment holds a marker.
  have hnone : ∀ i, i ≠ k → ∀ x ∈ logOf journal i, endsHeight height x = false := by
    intro i hi x hx
    have hmem := mem_logOf.mp hx
    rw [hjournal] at hmem
    rcases List.mem_append.mp hmem with hmem | hmem
    · exact honly _ (List.mem_append_left _ hmem)
    · rcases List.mem_cons.mp hmem with heq | hmem
      · cases heq
        exact absurd rfl hi
      · exact honly _ (List.mem_append_right _ hmem)
  have hsearch := h.searchForEndHeight_only_iff hfits hstarted hlow hk hnone
  constructor
  · rintro ⟨reader, hok, hread⟩
    obtain ⟨hfound, hscan⟩ := (hsearch reader).mp hok
    obtain ⟨hreadable, hrest⟩ := hflushed.readable_of_found rfl hfits hlog hm hbefore hfound hread
    refine ⟨?_, fun e he hek => hreadable e.2 (mem_logOf.mpr (hek ▸ he)),
      fun hindex e he hlow hlt => ?_⟩
    · have hlen := congrArg List.length hrest
      rw [logOf, List.length_map, List.length_map, eq_comm,
        List.length_filter_eq_length_iff] at hlen
      simpa using hlen
    · have hmissing := hscan hindex e.1 (h.minIndex_le.trans hlow) hlt
      exact (hflushed.search_missing_iff rfl hfits (hnone e.1 hlt.ne)).2.mp hmissing hlow
        (h.le e he) e.2 (mem_logOf.mpr he)
  · rintro ⟨hafter, hreadable, hscan⟩
    have hreadable' : ∀ x ∈ logOf journal k, Readable x :=
      fun x hx => hreadable _ (mem_logOf.mp hx) rfl
    obtain ⟨reader, hfound, hread⟩ :=
      hflushed.search_found rfl hfits hlow hk hlog hm hbefore hreadable'
    have hall : logOf after k = after.map Prod.snd := by
      rw [logOf, List.filter_eq_self.mpr (by simpa using hafter)]
    refine ⟨reader, (hsearch reader).mpr ⟨hfound, fun hindex i hi hlt => ?_⟩, hall ▸ hread⟩
    refine (hflushed.search_missing_iff rfl hfits (hnone i hlt.ne)).2.mpr fun hlow' _ x hx => ?_
    exact hscan hindex (i, x) (mem_logOf.mp hx) hlow' hlt

end Layout

/-- After any calls without a checkpoint: if one EndHeight message of a height was accepted,
the search for it returns what was accepted after it exactly if all of that is in its
segment, that segment has no message above the size limit of the reader and, where the index
does not know the height, the earlier segments have none either. -/
theorem replay_sees_rest_iff (maxSegSize : Int) (ops : List (Op M))
    (hkeeps : ∀ op ∈ ops, op.Keeps) (hnum : (Log.new M maxSegSize).Numbered ops)
    (hsized : ((Log.new M maxSegSize).run ops).Sized)
    (hstarted : ((Log.new M maxSegSize).run ops).wal.started = true)
    (height : Int) (before after : List (Nat × M)) (k : Nat) (m : M)
    (hjournal : ((Log.new M maxSegSize).run ops).journal = before ++ (k, m) :: after)
    (hm : endsHeight height m = true)
    (honly : ∀ e ∈ before ++ after, endsHeight height e.2 = false) :
    (∃ reader,
      (((Log.new M maxSegSize).run ops).wal.searchForEndHeight height).2 = .ok (some reader) ∧
      (decoder M).read reader = (after.map Prod.snd, none)) ↔
    (∀ e ∈ after, e.1 = k) ∧
      (∀ e ∈ before ++ (k, m) :: after, e.1 = k → msgSize e.2 < maxMsgSize) ∧
      (((Log.new M maxSegSize).run ops).wal.heightIndex.lookup height = none →
        ∀ e ∈ before, e.1 < k → msgSize e.2 < maxMsgSize) := by
  obtain ⟨low, -, hlaid, hlow⟩ := Log.run_laid ops (Log.new_laid maxSegSize) hnum hsized
  rw [hlow hkeeps] at hlaid
  have hreadable : ∀ e ∈ before ++ (k, m) :: after, (Readable e.2 ↔ msgSize e.2 < maxMsgSize) :=
    fun e he => ⟨Readable.size, fun hsize => ⟨hlaid.encoded e (hjournal ▸ he), hsize⟩⟩
  rw [Layout.sees_rest_iff hlaid (hlaid.fits hsized) hstarted hjournal (Nat.zero_le k) hm honly,
    hjournal]
  refine and_congr_right fun hafter => and_congr ?_ (imp_congr_right fun _ => ?_)
  · exact forall₂_congr fun e he => imp_congr_right fun _ => hreadable e he
  · constructor
    · intro hall e he hlt
      have hmem := List.mem_append_left ((k, m) :: after) he
      exact (hreadable e hmem).mp (hall e hmem (Nat.zero_le _) hlt)
    · intro hall e he _ hlt
      refine (hreadable e he).mpr ?_
      rcases List.mem_append.mp he with hbefore | hrest
      · exact hall e hbefore hlt
      · rcases List.mem_cons.mp hrest with rfl | hrest
        · exact absurd hlt (lt_irrefl _)
        · exact absurd (hafter e hrest) hlt.ne

section logs

attribute [local instance] markCodec

/-- Segments of one record: what follows the marker is in the next segment, and the reader
is at its end. -/
theorem rest_in_next_segment :
    ((Log.new Mark 1).run [.writeSync ⟨1, true⟩, .writeSync ⟨2, false⟩]).journal
      = [(0, ⟨1, true⟩), (1, ⟨2, false⟩)] ∧
    ∃ reader,
      (((Log.new Mark 1).run [.writeSync ⟨1, true⟩,
        .writeSync ⟨2, false⟩]).wal.searchForEndHeight 1).2 = .ok (some reader) ∧
      (decoder Mark).read reader = ([], none) :=
  ⟨by decide +kernel, [], by decide +kernel, by decide +kernel⟩

/-- In one large segment it is found. -/
theorem replay_sees_rest_mark : ∃ reader,
    (((Log.new Mark 99).run [.write ⟨1, true⟩, .write ⟨2, false⟩]).wal.searchForEndHeight 1).2
      = .ok (some reader) ∧ (decoder Mark).read reader = ([⟨2, false⟩], none) := by
  have hsized : ((Log.new Mark 99).run [.write ⟨1, true⟩, .write ⟨2, false⟩]).Sized := by
    unfold Log.Sized
    decide +kernel
  have hindexed : ((Log.new Mark 99).run
      [.write ⟨1, true⟩, .write ⟨2, false⟩]).wal.heightIndex.lookup 1 ≠ none := by
    decide +kernel
  have hjournal : ((Log.new Mark 99).run [.write ⟨1, true⟩, .write ⟨2, false⟩]).journal
      = [] ++ (0, ⟨1, true⟩) :: [(0, ⟨2, false⟩)] := by decide +kernel
  have hstarted : ((Log.new Mark 99).run
      [.write ⟨1, true⟩, .write ⟨2, false⟩]).wal.started = true := by decide +kernel
  have hiff := replay_sees_rest_iff (M := Mark) 99 [.write ⟨1, true⟩, .write ⟨2, false⟩]
    (by simp [Op.Keeps]) ⟨nofun, nofun, trivial⟩ hsized hstarted 1 [] [(0, ⟨2, false⟩)] 0
    ⟨1, true⟩ hjournal rfl (by simp [endsHeight])
  exact hiff.mpr ⟨by simp, by decide +kernel, fun h => absurd h hindexed⟩

end logs

end Leaderberry.Wal
