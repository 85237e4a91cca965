import Mathlib.Data.List.Basic
import Mathlib.Data.List.TakeWhile
import Mathlib.Data.List.Count

/-!
# Streams of records

A decoder takes one record off the front of a string of symbols, or says that the string
is at its end, or fails.

- `Decoder.read` takes records until the end or a failure, `Decoder.seek` until a record
  with a property; every record is shorter than what is left, so both terminate.
- `Framed`: a way to write a record that the decoder reads back whatever follows. Framed
  records are read back in order (`read_append`).
- `seek` is determined by what `read` returns (`seek_of_forall`, `seek_of_exists`), and
  leaves the reader behind the record it looked for (`seek_found`).
- `afterFirst`: what follows the first record of a kind.
-/

namespace RecordStream

/-- What a decoder finds at the front. -/
inductive Step (α β ε : Type*) where
  | eof
  | error (e : ε)
  | record (a : α) (rest : List β)
deriving DecidableEq

/-- The result of looking for a record: what follows it, or how the search ended. -/
inductive Seek (β ε : Type*) where
  | missing
  | failed (e : ε)
  | found (rest : List β)
deriving DecidableEq

structure Decoder (α β ε : Type*) where
  step : List β → Step α β ε
  shrinks : ∀ {s : List β} {a : α} {rest : List β},
    step s = .record a rest → rest.length < s.length

namespace Decoder

variable {α β ε : Type*} (d : Decoder α β ε)

/-! ## Reading to the end -/

def readFuel : Nat → List β → List α × Option ε
  | 0, _ => ([], none)
  | n + 1, s =>
    match d.step s with
    | .eof => ([], none)
    | .error e => ([], some e)
    | .record a rest => (a :: (readFuel n rest).1, (readFuel n rest).2)

/-- All records up to the end, or up to the error. -/
def read (s : List β) : List α × Option ε := d.readFuel (s.length + 1) s

theorem readFuel_eq {n : Nat} : ∀ {m : Nat} {s : List β}, s.length < n → s.length < m →
    d.readFuel n s = d.readFuel m s := by
  induction n with
  | zero => intro m s h; omega
  | succ n ih =>
    intro m s hn hm
    obtain ⟨m, rfl⟩ : ∃ k, m = k + 1 := ⟨m - 1, by omega⟩
    rw [readFuel, readFuel]
    cases hs : d.step s with
    | eof => rfl
    | error e => rfl
    | record a rest =>
      have hshort := d.shrinks hs
      dsimp only
      rw [ih (by omega) (show rest.length < m by omega)]

variable {d} {s rest : List β} {a : α} {e : ε}

theorem read_eof (h : d.step s = .eof) : d.read s = ([], none) := by
  rw [read, readFuel, h]

theorem read_error (h : d.step s = .error e) : d.read s = ([], some e) := by
  rw [read, readFuel, h]

theorem read_record (h : d.step s = .record a rest) :
    d.read s = (a :: (d.read rest).1, (d.read rest).2) := by
  have hshort := d.shrinks h
  rw [read, readFuel, h]
  dsimp only
  rw [d.readFuel_eq hshort (Nat.lt_succ_self _)]
  rfl

/-! ## Looking for a record -/

variable (d) in
def seekFuel (p : α → Bool) : Nat → List β → Seek β ε
  | 0, _ => .missing
  | n + 1, s =>
    match d.step s with
    | .eof => .missing
    | .error e => .failed e
    | .record a rest => if p a then .found rest else seekFuel p n rest

variable (d) in
/-- Reads records until one has the property. -/
def seek (p : α → Bool) (s : List β) : Seek β ε := d.seekFuel p (s.length + 1) s

variable {p : α → Bool}

theorem seekFuel_eq {n : Nat} : ∀ {m : Nat} {s : List β}, s.length < n → s.length < m →
    d.seekFuel p n s = d.seekFuel p m s := by
  induction n with
  | zero => intro m s h; omega
  | succ n ih =>
    intro m s hn hm
    obtain ⟨m, rfl⟩ : ∃ k, m = k + 1 := ⟨m - 1, by omega⟩
    rw [seekFuel, seekFuel]
    cases hs : d.step s with
    | eof => rfl
    | error e => rfl
    | record a rest =>
      have hshort := d.shrinks hs
      dsimp only
      rw [ih (by omega) (show rest.length < m by omega)]

theorem seek_record (h : d.step s = .record a rest) :
    d.seek p s = if p a then .found rest else d.seek p rest := by
  have hshort := d.shrinks h
  rw [seek, seekFuel, h]
  dsimp only
  rw [d.seekFuel_eq hshort (Nat.lt_succ_self _)]
  rfl

/-- Induction along the records of a string. -/
theorem recordInduction {motive : List β → Prop}
    (eof : ∀ s, d.step s = .eof → motive s)
    (error : ∀ s e, d.step s = .error e → motive s)
    (record : ∀ s a rest, d.step s = .record a rest → motive rest → motive s)
    (s : List β) : motive s := by
  induction hn : s.length using Nat.strongRecOn generalizing s with
  | _ n ih =>
    cases hs : d.step s with
    | eof => exact eof s hs
    | error e => exact error s e hs
    | record a rest =>
      have hshort := d.shrinks hs
      exact record s a rest hs (ih rest.length (by omega) rest rfl)

/-- No such record before the end or the error. -/
theorem seek_of_forall (s : List β) (h : ∀ a ∈ (d.read s).1, p a = false) :
    d.seek p s = match (d.read s).2 with
      | none => .missing
      | some e => .failed e := by
  induction s using d.recordInduction with
  | eof s hs => rw [read_eof hs, seek, seekFuel, hs]
  | error s e hs => rw [read_error hs, seek, seekFuel, hs]
  | record s a rest hs ih =>
    rw [read_record hs] at h ⊢
    rw [seek_record hs, if_neg (by simp [h a (List.mem_cons_self ..)])]
    exact ih fun b hb => h b (List.mem_cons_of_mem _ hb)

/-- There is such a record before the end or the error. -/
theorem seek_of_exists (s : List β) (h : ∃ a ∈ (d.read s).1, p a = true) :
    ∃ rest, d.seek p s = .found rest := by
  induction s using d.recordInduction with
  | eof s hs =>
    rw [read_eof hs] at h
    obtain ⟨a, ha, -⟩ := h
    cases ha
  | error s e hs =>
    rw [read_error hs] at h
    obtain ⟨a, ha, -⟩ := h
    cases ha
  | record s a rest hs ih =>
    rw [seek_record hs]
    by_cases hp : p a = true
    · exact ⟨rest, if_pos hp⟩
    · rw [if_neg hp]
      rw [read_record hs] at h
      obtain ⟨b, hb, hpb⟩ := h
      rcases List.mem_cons.mp hb with rfl | hb
      · exact absurd hpb hp
      · exact ih ⟨b, hb, hpb⟩

/-- The reader that `seek` returns stands behind the first such record. -/
theorem seek_found (s : List β) (h : d.seek p s = .found rest) :
    ∃ before a, p a = true ∧ (∀ b ∈ before, p b = false) ∧
      d.read s = (before ++ a :: (d.read rest).1, (d.read rest).2) := by
  induction s using d.recordInduction with
  | eof s hs => rw [seek, seekFuel, hs] at h; cases h
  | error s e hs => rw [seek, seekFuel, hs] at h; cases h
  | record s a tail hs ih =>
    rw [seek_record hs] at h
    rw [read_record hs]
    split at h
    · rename_i hp
      cases h
      exact ⟨[], a, hp, by simp, rfl⟩
    · rename_i hp
      obtain ⟨before, b, hb, hbefore, hread⟩ := ih h
      refine ⟨a :: before, b, hb, fun c hc => ?_, by rw [hread]; rfl⟩
      rcases List.mem_cons.mp hc with rfl | hc
      · exact Bool.eq_false_iff.mpr hp
      · exact hbefore c hc

/-- What is read behind the first such record. -/
theorem seek_read {after : List α} {e : Option ε} (ha : p a = true) (s : List β) :
    ∀ {before : List α}, (∀ b ∈ before, p b = false) →
      d.read s = (before ++ a :: after, e) →
      ∃ rest, d.seek p s = .found rest ∧ d.read rest = (after, e) := by
  induction s using d.recordInduction with
  | eof s hs =>
    intro before _ hread
    rw [read_eof hs, Prod.mk.injEq] at hread
    simp at hread
  | error s e hs =>
    intro before _ hread
    rw [read_error hs, Prod.mk.injEq] at hread
    simp at hread
  | record s b tail hs ih =>
    intro before hbefore hread
    rw [read_record hs, Prod.mk.injEq] at hread
    rw [seek_record hs]
    cases before with
    | nil =>
      obtain ⟨rfl, htail⟩ := List.cons.inj hread.1
      exact ⟨tail, if_pos ha, Prod.ext htail hread.2⟩
    | cons c before =>
      obtain ⟨rfl, htail⟩ := List.cons.inj hread.1
      rw [if_neg (by simp [hbefore b (List.mem_cons_self ..)])]
      exact ih (fun x hx => hbefore x (List.mem_cons_of_mem _ hx)) (Prod.ext htail hread.2)

/-! ## Framed records -/

variable (d) in
/-- Written with `frame`, the record is read back whatever follows. -/
def Framed (frame : α → List β) (a : α) : Prop :=
  ∀ rest, d.step (frame a ++ rest) = .record a rest

/-- Framed records are read back in order, before whatever follows. -/
theorem read_append {frame : α → List β} (tail : List β) : ∀ {l : List α},
    (∀ a ∈ l, d.Framed frame a) →
    d.read (l.flatMap frame ++ tail) = (l ++ (d.read tail).1, (d.read tail).2)
  | [], _ => rfl
  | a :: l, h => by
    have hstep : d.step ((a :: l).flatMap frame ++ tail) = .record a (l.flatMap frame ++ tail) := by
      rw [List.flatMap_cons, List.append_assoc]
      exact h a (List.mem_cons_self ..) _
    rw [read_record hstep, read_append tail fun b hb => h b (List.mem_cons_of_mem _ hb)]
    rfl

end Decoder

/-! ## Behind the first record of a kind -/

section afterFirst

variable {α : Type*} {p : α → Bool}

/-- What follows the first element with the property. -/
def afterFirst (p : α → Bool) (l : List α) : List α := (l.dropWhile fun a => !p a).tail

theorem afterFirst_split {l : List α} (h : ∃ a ∈ l, p a = true) :
    ∃ before a, l = before ++ a :: afterFirst p l ∧ p a = true ∧ ∀ b ∈ before, p b = false := by
  induction l with
  | nil =>
    obtain ⟨a, ha, -⟩ := h
    cases ha
  | cons b l ih =>
    cases hb : p b with
    | true => exact ⟨[], b, by simp [afterFirst, hb], hb, by simp⟩
    | false =>
      have hrest : ∃ a ∈ l, p a = true := by
        obtain ⟨a, ha, hpa⟩ := h
        rcases List.mem_cons.mp ha with rfl | ha
        · rw [hb] at hpa
          cases hpa
        · exact ⟨a, ha, hpa⟩
      obtain ⟨before, a, hl, ha, hbefore⟩ := ih hrest
      refine ⟨b :: before, a, ?_, ha, fun c hc => ?_⟩
      · have hskip : afterFirst p (b :: l) = afterFirst p l := by simp [afterFirst, hb]
        rw [hskip, List.cons_append, ← hl]
      · rcases List.mem_cons.mp hc with rfl | hc
        · exact hb
        · exact hbefore c hc

theorem afterFirst_append_of_forall {l₁ l₂ : List α} (h : ∀ a ∈ l₁, p a = false) :
    afterFirst p (l₁ ++ l₂) = afterFirst p l₂ := by
  unfold afterFirst
  rw [List.dropWhile_append_of_pos fun a ha => by simp [h a ha]]

theorem afterFirst_append_of_exists {l₁ l₂ : List α} (h : ∃ a ∈ l₁, p a = true) :
    afterFirst p (l₁ ++ l₂) = afterFirst p l₁ ++ l₂ := by
  obtain ⟨before, a, hl, ha, hbefore⟩ := afterFirst_split h
  rw [hl, List.append_assoc, afterFirst_append_of_forall hbefore,
    afterFirst_append_of_forall hbefore]
  simp [afterFirst, ha]

/-- Leaving out elements without the property. -/
theorem filter_afterFirst {q : α → Bool} (hq : ∀ a, p a = true → q a = true) (l : List α) :
    (afterFirst p l).filter q = afterFirst p (l.filter q) := by
  induction l with
  | nil => rfl
  | cons a l ih =>
    cases ha : p a with
    | true => simp [afterFirst, ha, hq a ha]
    | false =>
      have hskip : afterFirst p (a :: l) = afterFirst p l := by simp [afterFirst, ha]
      rw [hskip, ih, List.filter_cons]
      split
      · simp [afterFirst, ha]
      · rfl

end afterFirst

end RecordStream
