import Leaderberry.Wal.Layout

/-!
# Runs of a log

A `Log` is a `FileWAL` with its journal, and a run is a list of calls on a new one. In every
run the segments hold the journal (`run_laid`), as long as `Start` never finds 100000
segments (`Numbered`) and no message has 4 GiB or more (`Sized`).
-/

namespace Leaderberry.Wal

variable {M : Type} [WalCodec M]

/-- A log with the messages it accepted, each with its segment, oldest first. -/
structure Log (M : Type) where
  wal : FileWAL M
  journal : List (Nat × M)

/-- The calls. -/
inductive Op (M : Type) where
  | start
  | stop
  | flush
  | write (m : M)
  | writeSync (m : M)
  | search (height : Int)
  | checkpoint (removes : Nat → Bool) (height : Int)

/-- The call deletes nothing. -/
def Op.Keeps : Op M → Prop
  | .checkpoint _ _ => False
  | _ => True

def Op.isStart : Op M → Bool
  | .start => true
  | _ => false

namespace Log

variable {low : Nat} {l : Log M}

/-- A write, noted in the journal if it succeeded. -/
def accept (l : Log M) (m : M) (result : FileWAL M × Except WalError Unit) : Log M :=
  match result.2 with
  | .ok () => ⟨result.1, l.journal ++ [(result.1.segmentIndex, m)]⟩
  | .error _ => ⟨result.1, l.journal⟩

/-- One call. -/
def step (l : Log M) : Op M → Log M
  | .start => ⟨l.wal.start, l.journal⟩
  | .stop => ⟨l.wal.stop, l.journal⟩
  | .flush => ⟨l.wal.flush.1, l.journal⟩
  | .write m => l.accept m (l.wal.write m)
  | .writeSync m => l.accept m (l.wal.writeSync m)
  | .search height => ⟨(l.wal.searchForEndHeight height).1, l.journal⟩
  | .checkpoint removes height => ⟨(l.wal.checkpoint removes height).1, l.journal⟩

/-- The calls one after the other. -/
def run (l : Log M) (ops : List (Op M)) : Log M := ops.foldl step l

variable (M) in
/-- A new log in an empty directory, started. -/
def new (maxSegSize : Int) : Log M :=
  ⟨(FileWAL.newFileWALWithOptions ⟨none, ∅⟩ maxSegSize).start, []⟩

/-- `Start` never finds 100000 segments or more. -/
def Numbered (l : Log M) : List (Op M) → Prop
  | [] => True
  | op :: ops =>
    (op.isStart = true → l.wal.segmentIndex < 100000) ∧ (l.step op).Numbered ops

/-- No message has 4 GiB or more. -/
def Sized (l : Log M) : Prop := ∀ e ∈ l.journal, msgSize e.2 < 2 ^ 32

/-- The segments of a log hold its journal. -/
def Laid (low : Nat) (l : Log M) : Prop := Layout low l.wal l.journal

omit [WalCodec M] in
/-- A write leaves its log, whether it succeeded or not. -/
@[simp] theorem wal_accept (l : Log M) (m : M) (result : FileWAL M × Except WalError Unit) :
    (l.accept m result).wal = result.1 := by
  unfold accept
  split
  · rfl
  · rfl

theorem accept_laid {low : Nat} {l : Log M} {m : M} {result : FileWAL M × Except WalError Unit}
    (h : Layout low result.1 (match result.2 with
      | .ok () => l.journal ++ [(result.1.segmentIndex, m)]
      | .error _ => l.journal)) : (l.accept m result).Laid low := by
  unfold accept
  split <;> rename_i heq <;> rw [heq] at h <;> exact h

omit [WalCodec M] in
theorem journal_accept (l : Log M) (m : M) (result : FileWAL M × Except WalError Unit) :
    l.journal <+: (l.accept m result).journal := by
  unfold accept
  split
  · exact List.prefix_append _ _
  · exact List.prefix_rfl

theorem journal_step (l : Log M) (op : Op M) : l.journal <+: (l.step op).journal := by
  cases op with
  | write m => exact journal_accept l m _
  | writeSync m => exact journal_accept l m _
  | _ => exact List.prefix_rfl

theorem Laid.fits (h : l.Laid low) (hsized : l.Sized) :
    ∀ e ∈ l.journal, Fits e.2 :=
  fun e he => ⟨h.encoded e he, hsized e he⟩

/-- **Every call keeps the layout**, and only a checkpoint deletes segments. -/
theorem step_laid (h : l.Laid low) (hsized : l.Sized) (op : Op M)
    (hnum : op.isStart = true → l.wal.segmentIndex < 100000) :
    ∃ low', low ≤ low' ∧ (l.step op).Laid low' ∧ (op.Keeps → low' = low) := by
  have hfits := h.fits hsized
  cases op with
  | start => exact ⟨low, le_rfl, Layout.start h hfits (.inr (hnum rfl)), fun _ => rfl⟩
  | stop => exact ⟨low, le_rfl, Layout.stop h, fun _ => rfl⟩
  | flush =>
    refine ⟨low, le_rfl, ?_, fun _ => rfl⟩
    show Layout low l.wal.flush.1 l.journal
    unfold FileWAL.flush
    split
    · exact Layout.flushAndSync h
    · exact h
  | write m => exact ⟨low, le_rfl, accept_laid (Layout.write h m), fun _ => rfl⟩
  | writeSync m => exact ⟨low, le_rfl, accept_laid (Layout.writeSync h m), fun _ => rfl⟩
  | search height => exact ⟨low, le_rfl, Layout.searchForEndHeight h hfits height, fun _ => rfl⟩
  | checkpoint removes height =>
    obtain ⟨low', hle, hlaid⟩ := Layout.checkpoint h removes height
    exact ⟨low', hle, hlaid, fun hkeeps => hkeeps.elim⟩

theorem new_laid (maxSegSize : Int) : (new M maxSegSize).Laid 0 where
  legacy := rfl
  mem := fun i => by
    show i ∈ AList.insert 0 _ ∅ ↔ 0 ≤ i ∧ i ≤ 0
    rw [AList.mem_insert]
    simp
  closed := fun i _ hi => absurd hi (Nat.not_lt_zero i)
  current := rfl
  low_le := le_rfl
  minIndex_le := le_rfl
  maxIndex_eq := rfl
  stopped := fun h => nomatch h
  sorted := List.Pairwise.nil
  le := fun _ h => nomatch h
  encoded := fun _ h => nomatch h
  index := fun height k hlookup => by
    obtain ⟨-, bytes, hbytes, -⟩ := Layout.marked_of_lookup hlookup
    cases hbytes

theorem journal_run : ∀ (ops : List (Op M)) (l : Log M), l.journal <+: (l.run ops).journal
  | [], _ => List.prefix_rfl
  | op :: ops, l => (journal_step l op).trans (journal_run ops (l.step op))

/-- **The segments hold the journal after every run.** -/
theorem run_laid : ∀ (ops : List (Op M)) {l : Log M} {low : Nat}, l.Laid low →
    l.Numbered ops → (l.run ops).Sized →
    ∃ low', low ≤ low' ∧ (l.run ops).Laid low' ∧ ((∀ op ∈ ops, op.Keeps) → low' = low)
  | [], l, low, h, _, _ => ⟨low, le_rfl, h, fun _ => rfl⟩
  | op :: ops, l, low, h, hnum, hsized => by
    have hbefore : l.Sized := fun e he => hsized e ((journal_run (op :: ops) l).mem he)
    obtain ⟨low₁, hle₁, hlaid₁, hkeeps₁⟩ := step_laid h hbefore op hnum.1
    obtain ⟨low₂, hle₂, hlaid₂, hkeeps₂⟩ := run_laid ops hlaid₁ hnum.2 hsized
    refine ⟨low₂, hle₁.trans hle₂, hlaid₂, fun hall => ?_⟩
    rw [hkeeps₂ fun x hx => hall x (List.mem_cons_of_mem _ hx),
      hkeeps₁ (hall op (List.mem_cons_self ..))]

end Log

end Leaderberry.Wal
