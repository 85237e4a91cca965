import Mathlib.Order.Basic
import Mathlib.Data.List.Chain

/-!
# Watermarks

A log of entries, newest first, each a value at a slot of an ordered set. A *mark* is
above a log if every entry is at an earlier slot or is the mark itself. A log to which
only marks above it are added gives each slot one value (`Guarded.unique`), and its
slots go up except where an entry is repeated (`Guarded.isChain`).

This is the rule of a signer that keeps a high-water mark on disk: the mark may be
ahead of the log (written, but never released) without harm.
-/

namespace Watermark

variable {σ ν : Type*} [PartialOrder σ]

/-- A value at a slot. -/
structure Entry (σ ν : Type*) where
  slot : σ
  value : ν

/-- Every entry of the log lies before the mark or is the mark. -/
def Above (mark : Entry σ ν) (log : List (Entry σ ν)) : Prop :=
  ∀ e ∈ log, e.slot < mark.slot ∨ e = mark

/-- A log in which every entry was above the older ones. -/
def Guarded (log : List (Entry σ ν)) : Prop :=
  log.Pairwise fun newer older => older.slot < newer.slot ∨ older = newer

variable {mark next : Entry σ ν} {log : List (Entry σ ν)}

theorem above_nil : Above mark [] := fun _ he => by cases he

theorem guarded_nil : Guarded ([] : List (Entry σ ν)) := List.Pairwise.nil

/-- A later slot is above whatever the mark is above. -/
theorem Above.later (h : Above mark log) (hlt : mark.slot < next.slot) : Above next log := by
  intro e he
  rcases h e he with hbefore | rfl
  · exact .inl (hbefore.trans hlt)
  · exact .inl hlt

/-- A mark stays above when it is added. -/
theorem Above.cons (h : Above mark log) : Above mark (mark :: log) := by
  intro e he
  rcases List.mem_cons.mp he with rfl | he
  · exact .inr rfl
  · exact h e he

theorem Guarded.cons (hlog : Guarded log) (h : Above mark log) : Guarded (mark :: log) :=
  List.pairwise_cons.mpr ⟨h, hlog⟩

/-- A slot has one value. -/
theorem Guarded.unique (hlog : Guarded log) {e e' : Entry σ ν} (he : e ∈ log) (he' : e' ∈ log)
    (hslot : e.slot = e'.slot) : e = e' := by
  induction log with
  | nil => cases he
  | cons newest rest ih =>
    obtain ⟨habove, hrest⟩ := List.pairwise_cons.mp hlog
    rcases List.mem_cons.mp he with rfl | hold <;> rcases List.mem_cons.mp he' with rfl | hold'
    · rfl
    · rcases habove e' hold' with hlt | rfl
      · exact absurd hslot hlt.ne'
      · rfl
    · rcases habove e hold with hlt | rfl
      · exact absurd hslot hlt.ne
      · rfl
    · exact ih hrest hold hold'

/-- Slots go up from one entry to the next, except where it is repeated. -/
theorem Guarded.isChain (hlog : Guarded log) :
    log.IsChain fun newer older => older.slot < newer.slot ∨ older = newer :=
  List.Pairwise.isChain hlog

end Watermark
