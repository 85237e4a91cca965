import Leaderberry.Wal.Checkpoint

/-!
# A checkpoint after one that failed

`Checkpoint` moves `MinIndex` only after all removals. When a removal fails behind others
that succeeded, `MinIndex` is left at a segment that is gone, and every later checkpoint
stops there, because it cannot open that segment (`checkpoint_of_missing`). The removal
itself would not mind a missing file.

So a retry completes a failed checkpoint only if nothing was removed
(`checkpoint_retry_iff`).
-/

namespace Leaderberry.Wal

namespace FileWAL

variable {M : Type} [WalCodec M] {w : FileWAL M} {removes : Nat → Bool} {height height' : Int}

/-- A checkpoint of `r`, with no removal failing, leaves what one of `w` does: the segments
that one deletes are gone, and `MinIndex` and index are the same. -/
structure Completes (w r : FileWAL M) (height : Int) : Prop where
  segments : ∀ i, w.Deletes (fun _ => true) height i →
    i ∉ (r.checkpoint (fun _ => true) height).1.dir.segments
  minIndex : (r.checkpoint (fun _ => true) height).1.minIndex =
    (w.checkpoint (fun _ => true) height).1.minIndex
  heightIndex : ∀ g, (r.checkpoint (fun _ => true) height).1.heightIndex.lookup g =
    (w.checkpoint (fun _ => true) height).1.heightIndex.lookup g

theorem canDeleteSegment_mono {i : Nat} (hle : height ≤ height')
    (h : w.canDeleteSegment i height = .ok true) : w.canDeleteSegment i height' = .ok true := by
  unfold canDeleteSegment at h ⊢
  cases hbytes : w.dir.segments.lookup i with
  | none =>
    rw [hbytes] at h
    cases h
  | some bytes =>
    rw [hbytes] at h
    dsimp only at h ⊢
    split at h
    · cases h
    · have hmax := of_decide_eq_true (Except.ok.inj h)
      exact congrArg Except.ok (decide_eq_true (hmax.trans hle))

/-- The lowest segment is looked at first. -/
theorem segmentsToDelete_cases (w : FileWAL M) (height : Int) :
    w.segmentsToDelete height = [] ∨
      ∃ rest, w.segmentsToDelete height = w.minIndex :: rest := by
  unfold segmentsToDelete
  cases w.maxIndex - w.minIndex with
  | zero => exact .inl rfl
  | succ n =>
    rw [List.range'_succ, List.takeWhile_cons]
    split
    · exact .inr ⟨_, rfl⟩
    · exact .inl rfl

theorem segmentsToDelete_ne_nil_iff :
    w.segmentsToDelete height ≠ [] ↔
      w.minIndex < w.maxIndex ∧ w.canDeleteSegment w.minIndex height = .ok true := by
  unfold segmentsToDelete
  constructor
  · intro hne
    obtain ⟨i, hi⟩ := List.exists_mem_of_ne_nil _ hne
    obtain ⟨hle, hlt, hall⟩ := (mem_takeWhile_range' _ _).mp hi
    exact ⟨by omega, of_decide_eq_true (hall w.minIndex le_rfl hle)⟩
  · rintro ⟨hlt, hcan⟩
    refine List.ne_nil_of_mem ((mem_takeWhile_range' (i := w.minIndex) _ _).mpr
      ⟨le_rfl, by omega, fun j hj hji => ?_⟩)
    rw [le_antisymm hji hj]
    exact decide_eq_true hcan

/-- **A gap stops every checkpoint**: if the lowest segment is missing, nothing is deleted. -/
theorem checkpoint_of_missing (hmissing : w.dir.segments.lookup w.minIndex = none) :
    (w.checkpoint removes height).1 = w := by
  have hnone : w.segmentsToDelete height = [] := by
    by_contra hne
    obtain ⟨-, hcan⟩ := segmentsToDelete_ne_nil_iff.mp hne
    rw [canDeleteSegment, hmissing] at hcan
    cases hcan
  unfold checkpoint
  split
  · rw [hnone]
    rfl
  · rfl

/-- A failed checkpoint wanted to delete the lowest segment. It left `MinIndex` alone, and if
that segment was not removed, it left everything alone. -/
theorem checkpoint_failed {i : Nat}
    (hfail : (w.checkpoint removes height).2 = .error (.removeFailed i)) :
    w.started = true ∧ w.segmentsToDelete height ≠ [] ∧
      (w.checkpoint removes height).1.minIndex = w.minIndex ∧
      (removes w.minIndex = false → (w.checkpoint removes height).1 = w) := by
  obtain ⟨-, -, hmin⟩ := Removal.deleteSegments removes (w.segmentsToDelete height) w
  unfold checkpoint at hfail ⊢
  by_cases hstarted : w.started = true
  · rw [if_pos hstarted] at hfail ⊢
    dsimp only at hfail ⊢
    refine ⟨hstarted, ?_, ?_, ?_⟩
    · intro hnil
      rw [hnil] at hfail
      cases hfail
    · cases hdelete : deleteSegments removes (w.segmentsToDelete height) w with
      | mk w₁ result =>
        rw [hdelete] at hfail hmin
        cases result with
        | error e => exact hmin
        | ok =>
          dsimp only at hfail
          split at hfail
          · cases hfail
          · cases hfail
    · intro hremoves
      -- the lowest segment comes first, and the loop ends there
      rcases segmentsToDelete_cases w height with hnil | ⟨rest, hcons⟩
      · rw [hnil]
        rfl
      · rw [hcons, deleteSegments, if_neg (by rw [hremoves]; exact Bool.false_ne_true)]
  · rw [if_neg hstarted] at hfail
    cases hfail

omit [WalCodec M] in
theorem deleteSegments_all (list : List Nat) (w : FileWAL M) :
    (deleteSegments (fun _ => true) list w).2 = .ok () := by
  induction list generalizing w with
  | nil => rfl
  | cons index list ih => exact ih (w.deleteSegment index)

/-- A checkpoint that deletes something and does not fail moves `MinIndex`. -/
theorem minIndex_lt_checkpoint (hstarted : w.started = true)
    (hne : w.segmentsToDelete height ≠ []) :
    w.minIndex < (w.checkpoint (fun _ => true) height).1.minIndex := by
  have hok := deleteSegments_all (w.segmentsToDelete height) w
  unfold checkpoint
  rw [if_pos hstarted]
  dsimp only
  cases hdelete : deleteSegments (fun _ => true) (w.segmentsToDelete height) w with
  | mk w₁ result =>
    rw [hdelete] at hok
    cases result with
    | error e => cases hok
    | ok =>
      dsimp only
      rw [List.getLast?_eq_some_getLast hne]
      -- the last segment that is deleted is not below the lowest
      exact Nat.lt_succ_of_le ((mem_takeWhile_range' _ _).mp (List.getLast_mem hne)).1

/-- **A failed checkpoint can be retried exactly if nothing was removed.** The second
checkpoint, of the same or a greater height and with no removal failing, completes the first
one exactly if the removal that failed was the first. -/
theorem checkpoint_retry_iff (w : FileWAL M) (removes : Nat → Bool) {height height' : Int}
    (hle : height ≤ height') {i : Nat}
    (hfail : (w.checkpoint removes height).2 = .error (.removeFailed i)) :
    w.Completes (w.checkpoint removes height).1 height' ↔ removes w.minIndex = false := by
  obtain ⟨hstarted, hne, hmin, hkept⟩ := checkpoint_failed hfail
  obtain ⟨hlt, hcan⟩ := segmentsToDelete_ne_nil_iff.mp hne
  have hremoval := Removal.checkpoint hstarted removes height
  constructor
  · intro hcompletes
    by_contra hremoves
    rw [Bool.not_eq_false] at hremoves
    -- the lowest segment is gone, so the retry does nothing
    have hgone : (w.checkpoint removes height).1.dir.segments.lookup
        (w.checkpoint removes height).1.minIndex = none := by
      rw [hmin, hremoval.lookup, if_pos]
      refine mem_removed.mpr ⟨le_rfl, hlt, fun j hj hji => ?_⟩
      rw [le_antisymm hji hj]
      exact ⟨hcan, hremoves⟩
    have hminIndex := hcompletes.minIndex
    rw [checkpoint_of_missing hgone, hmin] at hminIndex
    have hne' : w.segmentsToDelete height' ≠ [] :=
      segmentsToDelete_ne_nil_iff.mpr ⟨hlt, canDeleteSegment_mono hle hcan⟩
    exact absurd hminIndex (minIndex_lt_checkpoint hstarted hne').ne
  · intro hremoves
    rw [hkept hremoves]
    refine ⟨fun k hk => ?_, rfl, fun g => rfl⟩
    rw [← AList.lookup_eq_none, (Removal.checkpoint hstarted (fun _ => true) height').lookup,
      if_pos (mem_removed.mpr hk)]

end FileWAL

section logs

open FileWAL

attribute [local instance] markCodec

/-- Three segments, with the heights 1, 1 and 2. -/
def threeSegments : FileWAL Mark :=
  ((Log.new Mark 1).run [.writeSync ⟨1, false⟩, .writeSync ⟨1, true⟩, .writeSync ⟨2, false⟩]).wal

/-- Segment 0 is removed and segment 1 is not: no later checkpoint removes it. -/
theorem checkpoint_retry_stuck :
    (threeSegments.checkpoint (fun i => i == 0) 1).2 = .error (.removeFailed 1) ∧
    threeSegments.Deletes (fun _ => true) 1 1 ∧
    1 ∈ ((threeSegments.checkpoint (fun i => i == 0) 1).1.checkpoint
      (fun _ => true) 1).1.dir.segments ∧
    ((threeSegments.checkpoint (fun i => i == 0) 1).1.checkpoint (fun _ => true) 1).1.minIndex = 0 ∧
    (threeSegments.checkpoint (fun _ => true) 1).1.minIndex = 2 := by
  refine ⟨by decide +kernel, mem_removed.mp (by decide +kernel), by decide +kernel,
    by decide +kernel, by decide +kernel⟩

theorem checkpoint_retry_first :
    threeSegments.Completes (threeSegments.checkpoint (fun _ => false) 1).1 1 :=
  (checkpoint_retry_iff threeSegments (fun _ => false) le_rfl (i := 0) (by decide +kernel)).mpr rfl

end logs

end Leaderberry.Wal
