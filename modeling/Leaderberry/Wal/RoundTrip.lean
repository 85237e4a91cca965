import Leaderberry.Wal.Log

/-!
# Reading the whole log back

`OpenWALForReading` goes through the segments in order, so it returns the journal, unless it
meets a message that the writer took but that is too long for the reader
(`Log.Laid.openWALForReading_iff`).
-/

namespace Leaderberry.Wal

variable {M : Type} [WalCodec M]

/-! ## The journal by segments -/

omit [WalCodec M] in
/-- A list that is ordered by number starts with its lowest number. -/
theorem filter_lowest_append {a : Nat} : ∀ {journal : List (Nat × M)},
    journal.Pairwise (fun e₁ e₂ => e₁.1 ≤ e₂.1) → (∀ e ∈ journal, a ≤ e.1) →
    (journal.filter fun e => e.1 = a) ++ (journal.filter fun e => e.1 ≠ a) = journal
  | [], _, _ => rfl
  | e :: rest, hsorted, hlow => by
    obtain ⟨hfirst, hrest⟩ := List.pairwise_cons.mp hsorted
    have hlow' : ∀ x ∈ rest, a ≤ x.1 := fun x hx => hlow x (List.mem_cons_of_mem _ hx)
    by_cases he : e.1 = a
    · rw [List.filter_cons_of_pos (by simpa using he), List.filter_cons_of_neg (by simpa using he),
        List.cons_append, filter_lowest_append hrest hlow']
    · have hnone : ∀ x ∈ e :: rest, ¬ x.1 = a := by
        intro x hx
        have hle := hlow e (List.mem_cons_self ..)
        rcases List.mem_cons.mp hx with rfl | hx
        · exact he
        · have := hfirst x hx
          omega
      rw [List.filter_eq_nil_iff.mpr (by simpa using hnone),
        List.filter_eq_self.mpr (by simpa using hnone), List.nil_append]

omit [WalCodec M] in
/-- The segments one after the other are the journal. -/
theorem flatMap_logOf : ∀ (n a : Nat) {journal : List (Nat × M)},
    journal.Pairwise (fun e₁ e₂ => e₁.1 ≤ e₂.1) → (∀ e ∈ journal, a ≤ e.1 ∧ e.1 < a + n) →
    (List.range' a n).flatMap (logOf journal) = journal.map Prod.snd
  | 0, a, journal, _, hrange => by
    have hnil : journal = [] := List.eq_nil_iff_forall_not_mem.mpr fun e he => by
      have := hrange e he
      omega
    rw [hnil]
    rfl
  | n + 1, a, journal, hsorted, hrange => by
    have hsplit := filter_lowest_append hsorted fun e he => (hrange e he).1
    have hrest : ∀ i ∈ List.range' (a + 1) n,
        logOf journal i = logOf (journal.filter fun e => e.1 ≠ a) i := by
      intro i hi
      rw [List.mem_range'_1] at hi
      unfold logOf
      rw [List.filter_filter]
      congr 1
      refine List.filter_congr fun e _ => ?_
      by_cases he : e.1 = i
      · simp [he, show i ≠ a by omega]
      · simp [he]
    rw [List.range'_succ, List.flatMap_cons, List.flatMap_congr hrest,
      flatMap_logOf n (a + 1) (hsorted.filter _) ?_, logOf, ← List.map_append, hsplit]
    intro e he
    obtain ⟨hmem, hne⟩ := List.mem_filter.mp he
    have := hrange e hmem
    simp only [ne_eq, decide_not, Bool.not_eq_true', decide_eq_false_iff_not] at hne
    omega

/-! ## Reading segments -/

/-- What is read from a list of segments, up to the first one with an error. -/
theorem readSegments_eof {dir : Dir} (content : Nat → Bytes) : ∀ {list : List Nat},
    (∀ i ∈ list, dir.segments.lookup i = some (content i)) →
    ((dir.readSegments M list).2 = none ↔
      ∀ i ∈ list, ((decoder M).read (content i)).2 = none) ∧
    ((dir.readSegments M list).2 = none →
      (dir.readSegments M list).1 = list.flatMap fun i => ((decoder M).read (content i)).1)
  | [], _ => ⟨by simp [Dir.readSegments], fun _ => rfl⟩
  | i :: rest, h => by
    obtain ⟨hiff, heq⟩ := readSegments_eof content fun j hj => h j (List.mem_cons_of_mem _ hj)
    rw [Dir.readSegments, h i (List.mem_cons_self ..)]
    dsimp only
    cases hread : (decoder M).read (content i) with
    | mk msgs error =>
      cases error with
      | some e => simp [hread]
      | none =>
        refine ⟨?_, fun hnone => ?_⟩
        · simp [hread, hiff]
        · rw [List.flatMap_cons, hread]
          exact congrArg (msgs ++ ·) (heq hnone)

namespace Log

/-- The messages of a log that are not deleted. -/
def kept (low : Nat) (l : Log M) : List M :=
  (l.journal.filter fun e => low ≤ e.1).map Prod.snd

section outline

variable {low : Nat} {l : Log M}

/-- The segments that a reader goes through exist. -/
theorem lookup_eq (h : Outline low l.wal l.journal) {i : Nat}
    (hi : i ∈ indices low l.wal.segmentIndex) :
    l.wal.dir.segments.lookup i = some (l.wal.segment i) := by
  rw [indices, List.mem_range'_1] at hi
  have hlow := h.low_le
  obtain ⟨bytes, hbytes⟩ := Option.isSome_iff_exists.mp
    (AList.lookup_isSome.mpr ((h.mem i).mpr (by omega)))
  rw [FileWAL.segment, hbytes]
  rfl

theorem flatMap_logOf_eq (h : Outline low l.wal l.journal) :
    (indices low l.wal.segmentIndex).flatMap (logOf l.journal) = l.kept low := by
  have hfilter : ∀ i ∈ indices low l.wal.segmentIndex,
      logOf l.journal i = logOf (l.journal.filter fun e => low ≤ e.1) i := by
    intro i hi
    rw [indices, List.mem_range'_1] at hi
    unfold logOf
    rw [List.filter_filter]
    congr 1
    refine List.filter_congr fun e _ => ?_
    by_cases he : e.1 = i
    · simp [he, hi.1]
    · simp [he]
  rw [List.flatMap_congr hfilter]
  refine Wal.flatMap_logOf _ low (h.sorted.filter _) fun e he => ?_
  obtain ⟨hmem, hlow⟩ := List.mem_filter.mp he
  have := h.le e hmem
  simp only [decide_eq_true_eq] at hlow
  omega

/-- The reader goes through the segments that are there. -/
theorem openWALForReading_eq (h : Outline low l.wal l.journal)
    (hnum : l.wal.segmentIndex < 100000) :
    l.wal.dir.openWALForReading M =
      .ok (l.wal.dir.readSegments M (indices low l.wal.segmentIndex)) := by
  have hlow := h.low_le
  have hne : ¬ (indices low l.wal.segmentIndex).length = 0 := by
    rw [indices, List.length_range']
    omega
  rw [Dir.openWALForReading, h.legacy]
  dsimp only
  rw [h.spans.findSegments hnum, if_neg hne]

end outline

/-- **A log is read back exactly if its messages are readable.** -/
theorem Laid.openWALForReading_iff {low : Nat} {l : Log M} (h : l.Laid low) (hsized : l.Sized)
    (hbuf : l.wal.buf = []) (hnum : l.wal.segmentIndex < 100000) :
    l.wal.dir.openWALForReading M = .ok (l.kept low, none) ↔
      ∀ e ∈ l.journal, low ≤ e.1 → msgSize e.2 < maxMsgSize := by
  have hfits : ∀ i, ∀ m ∈ logOf l.journal i, Fits m :=
    fun i m hm => h.fits hsized _ (mem_logOf.mp hm)
  have hlookup : ∀ i ∈ indices low l.wal.segmentIndex,
      l.wal.dir.segments.lookup i = some (l.wal.segment i) := fun i hi => lookup_eq h.toOutline hi
  have hsegment : ∀ i ∈ indices low l.wal.segmentIndex,
      (decoder M).read (l.wal.segment i) = (decoder M).read (records (logOf l.journal i)) :=
    fun i hi => Layout.read_segment h hbuf (h.fits hsized) (hlookup i hi)
  obtain ⟨hiff, heq⟩ := readSegments_eof (M := M) l.wal.segment hlookup
  rw [openWALForReading_eq h.toOutline hnum, Except.ok.injEq]
  constructor
  · intro hall e he hle
    have hi : e.1 ∈ indices low l.wal.segmentIndex := by
      rw [indices, List.mem_range'_1]
      have := h.le e he
      omega
    have heof := hiff.mp (by rw [hall]) e.1 hi
    rw [hsegment e.1 hi] at heof
    exact ((read_records_eof_iff (hfits e.1)).mp heof e.2 (mem_logOf.mpr he)).size
  · intro hall
    have hreadable : ∀ i ∈ indices low l.wal.segmentIndex, ∀ m ∈ logOf l.journal i, Readable m := by
      intro i hi m hm
      rw [indices, List.mem_range'_1] at hi
      exact ⟨(hfits i m hm).encoded, hall _ (mem_logOf.mp hm) hi.1⟩
    have hsegment' : ∀ i ∈ indices low l.wal.segmentIndex,
        (decoder M).read (l.wal.segment i) = (logOf l.journal i, none) :=
      fun i hi => (hsegment i hi).trans (read_records (hreadable i hi))
    have heof := hiff.mpr fun i hi => by rw [hsegment' i hi]
    refine Prod.ext ?_ heof
    rw [heq heof, List.flatMap_congr fun i hi => by rw [hsegment' i hi]]
    exact flatMap_logOf_eq h.toOutline

omit [WalCodec M] in
theorem kept_zero (l : Log M) : l.kept 0 = l.journal.map Prod.snd := by
  unfold kept
  rw [List.filter_eq_self.mpr (by simp)]

end Log

/-- After any calls without a checkpoint that leave the log stopped, the directory is read
back as the messages that were accepted, in order, exactly if all of them are below the
size limit of the reader. -/
theorem round_trip_iff (maxSegSize : Int) (ops : List (Op M)) (hkeeps : ∀ op ∈ ops, op.Keeps)
    (hstopped : ((Log.new M maxSegSize).run ops).wal.started = false)
    (hnum : (Log.new M maxSegSize).Numbered ops)
    (hlast : ((Log.new M maxSegSize).run ops).wal.segmentIndex < 100000)
    (hsized : ((Log.new M maxSegSize).run ops).Sized) :
    ((Log.new M maxSegSize).run ops).wal.dir.openWALForReading M =
        .ok (((Log.new M maxSegSize).run ops).journal.map Prod.snd, none) ↔
      ∀ e ∈ ((Log.new M maxSegSize).run ops).journal, msgSize e.2 < maxMsgSize := by
  obtain ⟨low, -, hlaid, hlow⟩ := Log.run_laid ops (Log.new_laid maxSegSize) hnum hsized
  rw [hlow hkeeps] at hlaid
  have hiff := hlaid.openWALForReading_iff hsized (hlaid.stopped hstopped) hlast
  rw [Log.kept_zero] at hiff
  simpa using hiff

section logs

attribute [local instance] blankCodec

theorem not_read_back {n : Nat} (hmax : maxMsgSize ≤ n) (hn : n < 2 ^ 32) :
    ((Log.new Nat 1).run [.writeSync n, .stop]).wal.dir.openWALForReading Nat ≠
      .ok ([n], none) := by
  have hsize : msgSize n = n := List.length_replicate
  have hjournal : ((Log.new Nat 1).run [.writeSync n, .stop]).journal = [(0, n)] := rfl
  have hsized : ((Log.new Nat 1).run [.writeSync n, .stop]).Sized := by
    intro e he
    rw [hjournal, List.mem_singleton] at he
    rw [he, hsize]
    exact hn
  obtain ⟨low, -, hlaid, hlow⟩ := Log.run_laid [.writeSync n, .stop]
    (Log.new_laid 1) ⟨nofun, nofun, trivial⟩ hsized
  rw [hlow (by simp [Op.Keeps])] at hlaid
  intro hread
  have hall := (hlaid.openWALForReading_iff hsized rfl (Nat.succ_pos _)).mp (by
    rw [hread, Log.kept_zero, hjournal]
    rfl)
  have := hall (0, n) (by rw [hjournal]; exact List.mem_singleton.mpr rfl) le_rfl
  rw [hsize] at this
  omega

/-- A message of ten megabytes is accepted by `WriteSync` and not read back. -/
theorem oversized_message_lost :
    ((Log.new Nat 1).run [.writeSync maxMsgSize, .stop]).journal = [(0, maxMsgSize)] ∧
    ((Log.new Nat 1).run [.writeSync maxMsgSize, .stop]).wal.dir.openWALForReading Nat ≠
      .ok ([maxMsgSize], none) := by
  have hjournal : ∀ n, ((Log.new Nat 1).run [.writeSync n, .stop]).journal = [(0, n)] :=
    fun _ => rfl
  exact ⟨hjournal _, not_read_back le_rfl (by decide)⟩

/-- Three messages over two segments, with a restart in between. -/
theorem round_trip_blank :
    ((Log.new Nat 12).run [.write 3, .writeSync 1, .stop, .start, .write 2, .stop]).journal
      = [(0, 3), (0, 1), (1, 2)] ∧
    ((Log.new Nat 12).run
        [.write 3, .writeSync 1, .stop, .start, .write 2, .stop]).wal.dir.openWALForReading Nat
      = .ok ([3, 1, 2], none) := by
  have hjournal : ((Log.new Nat 12).run
      [.write 3, .writeSync 1, .stop, .start, .write 2, .stop]).journal
      = [(0, 3), (0, 1), (1, 2)] := by decide +kernel
  refine ⟨hjournal, ?_⟩
  have h := (round_trip_iff 12 [.write 3, .writeSync 1, .stop, .start, .write 2, .stop]
    (by simp [Op.Keeps]) (by decide +kernel) ⟨nofun, nofun, nofun, fun _ => by decide +kernel,
      nofun, nofun, trivial⟩ (by decide +kernel) (by unfold Log.Sized; decide +kernel)).mpr
    (by decide +kernel)
  rwa [hjournal] at h

end logs

end Leaderberry.Wal
