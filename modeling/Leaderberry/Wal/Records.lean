import Leaderberry.Wal.FileWAL

/-!
# The records of a segment

A segment that holds the records of some messages is read back up to the first message that
is too long for the reader (`read_records_cases`).
-/

namespace Leaderberry.Wal

open RecordStream

variable {M : Type} [WalCodec M] {m : M} {msgs : List M} {index : Nat}

/-- The content of a segment with the given messages. -/
def records (msgs : List M) : Bytes := msgs.flatMap record

/-- The messages of a segment. -/
def logOf (journal : List (Nat × M)) (index : Nat) : List M :=
  (journal.filter fun e => e.1 = index).map Prod.snd

/-- The message was accepted, and its length fits the length field. -/
structure Fits (m : M) : Prop where
  encoded : (WalCodec.marshal m).isSome
  size : msgSize m < 2 ^ 32

/-- The reader accepts the message. -/
structure Readable (m : M) : Prop where
  encoded : (WalCodec.marshal m).isSome
  size : msgSize m < maxMsgSize

theorem Readable.fits (h : Readable m) : Fits m :=
  ⟨h.encoded, h.size.trans (by decide)⟩

theorem records_append (l₁ l₂ : List M) : records (l₁ ++ l₂) = records l₁ ++ records l₂ :=
  List.flatMap_append

/-- Readable messages are read back, before whatever follows. -/
theorem read_records_append (h : ∀ m ∈ msgs, Readable m) (tail : Bytes) :
    (decoder M).read (records msgs ++ tail) =
      (msgs ++ ((decoder M).read tail).1, ((decoder M).read tail).2) :=
  Decoder.read_append tail fun m hm => framed_of_size (h m hm).encoded (h m hm).size

theorem read_nil : (decoder M).read [] = ([], none) := Decoder.read_eof rfl

theorem read_records (h : ∀ m ∈ msgs, Readable m) :
    (decoder M).read (records msgs) = (msgs, none) := by
  have := read_records_append h []
  rwa [List.append_nil, read_nil, List.append_nil] at this

/-- Messages that fit the length field are read up to the first one that is too long. -/
theorem read_records_cases (h : ∀ m ∈ msgs, Fits m) :
    (∀ m ∈ msgs, Readable m) ∨
    ∃ before bad after, msgs = before ++ bad :: after ∧ (∀ m ∈ before, Readable m) ∧
      maxMsgSize ≤ msgSize bad ∧
      (decoder M).read (records msgs) = (before, some (.corruptedSize (msgSize bad))) := by
  induction msgs with
  | nil => exact .inl fun m hm => nomatch hm
  | cons m rest ih =>
    by_cases hsize : msgSize m < maxMsgSize
    · have hm : Readable m := ⟨(h m (List.mem_cons_self ..)).encoded, hsize⟩
      rcases ih fun x hx => h x (List.mem_cons_of_mem _ hx) with
        hall | ⟨before, bad, after, rfl, hbefore, hbad, hread⟩
      · exact .inl (List.forall_mem_cons.mpr ⟨hm, hall⟩)
      · refine .inr ⟨m :: before, bad, after, rfl, List.forall_mem_cons.mpr ⟨hm, hbefore⟩,
          hbad, ?_⟩
        have hone := read_records_append (List.forall_mem_singleton.mpr hm)
          (records (before ++ bad :: after))
        rw [hread, ← records_append] at hone
        exact hone
    · refine .inr ⟨[], m, rest, rfl, by simp, not_lt.mp hsize, Decoder.read_error ?_⟩
      exact decode_oversized (not_lt.mp hsize) (h m (List.mem_cons_self ..)).size (records rest)

/-- Leftover bytes that the decoder takes for the end of the segment. -/
def IsTail (tail : Bytes) : Prop := decode M tail = .eof

theorem isTail_nil : IsTail (M := M) [] := rfl

/-- Such bytes do not change what is read. -/
theorem read_records_tail (h : ∀ m ∈ msgs, Fits m) {tail : Bytes} (htail : IsTail (M := M) tail) :
    (decoder M).read (records msgs ++ tail) = (decoder M).read (records msgs) := by
  have hend : (decoder M).read tail = ([], none) := Decoder.read_eof htail
  rcases read_records_cases h with hall | ⟨before, bad, after, rfl, hbefore, hbad, hread⟩
  · rw [read_records_append hall, read_records hall, hend, List.append_nil]
  · have hfits := (h bad (List.mem_append_right _ (List.mem_cons_self ..))).size
    have hrest : records (before ++ bad :: after) ++ tail
        = records before ++ (record bad ++ (records after ++ tail)) := by
      simp [records]
    rw [hread, hrest, read_records_append hbefore,
      Decoder.read_error (decode_oversized hbad hfits _), List.append_nil]

/-- What is read was written. -/
theorem mem_of_mem_read (h : ∀ m ∈ msgs, Fits m) (hm : m ∈ ((decoder M).read (records msgs)).1) :
    m ∈ msgs := by
  rcases read_records_cases h with hall | ⟨before, bad, after, rfl, -, -, hread⟩
  · rwa [read_records hall] at hm
  · rw [hread] at hm
    exact List.mem_append_left _ hm

/-- A segment is read to its end exactly if its messages are readable. -/
theorem read_records_eof_iff (h : ∀ m ∈ msgs, Fits m) :
    ((decoder M).read (records msgs)).2 = none ↔ ∀ m ∈ msgs, Readable m := by
  rcases read_records_cases h with hall | ⟨before, bad, after, rfl, -, hbad, hread⟩
  · rw [read_records hall]
    exact iff_of_true rfl hall
  · rw [hread]
    refine iff_of_false (by simp) fun hall => ?_
    have := (hall bad (List.mem_append_right _ (List.mem_cons_self ..))).size
    omega

section

omit [WalCodec M]

theorem logOf_append (j₁ j₂ : List (Nat × M)) (index : Nat) :
    logOf (j₁ ++ j₂) index = logOf j₁ index ++ logOf j₂ index := by
  simp [logOf]

theorem mem_logOf {journal : List (Nat × M)} :
    m ∈ logOf journal index ↔ (index, m) ∈ journal := by
  simp only [logOf, List.mem_map, List.mem_filter, decide_eq_true_eq]
  constructor
  · rintro ⟨⟨i, x⟩, ⟨hmem, rfl⟩, rfl⟩
    exact hmem
  · intro hmem
    exact ⟨(index, m), ⟨hmem, rfl⟩, rfl⟩

theorem logOf_of_forall {journal : List (Nat × M)} (h : ∀ e ∈ journal, e.1 = index) :
    logOf journal index = journal.map Prod.snd := by
  unfold logOf
  rw [List.filter_eq_self.mpr fun e he => decide_eq_true (h e he)]

theorem logOf_map (msgs : List M) (index : Nat) :
    logOf (msgs.map fun m => (index, m)) index = msgs := by
  rw [logOf_of_forall (by simp), List.map_map]
  exact List.map_id msgs

/-- The messages of the first segment were written first. -/
theorem logOf_prefix_map : ∀ {journal : List (Nat × M)},
    journal.Pairwise (fun e₁ e₂ => e₁.1 ≤ e₂.1) → (∀ e ∈ journal, index ≤ e.1) →
    logOf journal index <+: journal.map Prod.snd
  | [], _, _ => List.prefix_rfl
  | e :: journal, hsorted, hle => by
    obtain ⟨hfirst, hrest⟩ := List.pairwise_cons.mp hsorted
    by_cases he : e.1 = index
    · have hcons : logOf (e :: journal) index = e.2 :: logOf journal index := by simp [logOf, he]
      rw [hcons, List.map_cons, List.cons_prefix_cons]
      exact ⟨rfl, logOf_prefix_map hrest fun x hx => hle x (List.mem_cons_of_mem _ hx)⟩
    · -- a later segment has begun
      have hnil : logOf (e :: journal) index = [] := by
        refine List.eq_nil_iff_forall_not_mem.mpr fun m hm => ?_
        have hlt : index < e.1 := lt_of_le_of_ne (hle e (List.mem_cons_self ..)) (Ne.symm he)
        rcases List.mem_cons.mp (mem_logOf.mp hm) with hm | hm
        · exact he (congrArg Prod.fst hm).symm
        · exact absurd (hfirst _ hm) (not_le.mpr hlt)
      rw [hnil]
      exact List.nil_prefix

/-- What follows the only message of a kind in its segment follows it in the journal. -/
theorem afterFirst_logOf {journal : List (Nat × M)} {p : M → Bool}
    (hsorted : journal.Pairwise fun e₁ e₂ => e₁.1 ≤ e₂.1)
    (honly : (journal.map Prod.snd).countP p ≤ 1) (h : ∃ m ∈ logOf journal index, p m = true) :
    afterFirst p (logOf journal index) <+: afterFirst p (journal.map Prod.snd) := by
  obtain ⟨m, hm, hp⟩ := h
  obtain ⟨before, after, rfl⟩ := List.append_of_mem (mem_logOf.mp hm)
  have hbefore : ∀ x ∈ before.map Prod.snd, p x = false := by
    rw [List.map_append, List.map_cons, List.countP_append, List.countP_cons_of_pos hp] at honly
    intro x hx
    simpa using List.countP_eq_zero.mp (by omega) x hx
  have hlog : logOf (before ++ (index, m) :: after) index =
      logOf before index ++ m :: logOf after index := by
    rw [logOf_append]
    simp [logOf]
  have hfirst : ∀ x ∈ logOf before index, p x = false :=
    fun x hx => hbefore x (List.mem_map_of_mem (mem_logOf.mp hx))
  obtain ⟨-, hlater, -⟩ := List.pairwise_append.mp hsorted
  obtain ⟨hle, hafter⟩ := List.pairwise_cons.mp hlater
  rw [hlog, afterFirst_append_of_forall hfirst, List.map_append,
    afterFirst_append_of_forall hbefore]
  simpa [afterFirst, hp] using logOf_prefix_map hafter hle

end

end Leaderberry.Wal
