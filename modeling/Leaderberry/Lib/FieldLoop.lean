import Mathlib.Data.List.Basic
import Leaderberry.Lib.PrefixCode

/-!
# Messages made of tagged fields

A message is written as a sequence of fields, each behind a tag, and a mark behind the last
one. A reader gets a tag, hands over to whatever reads that field into the message it has so
far, and goes on until it finds the mark.

- `Reader`, and `Restores`: a reader that gets back what a writer wrote.
- `readFields`: the loop. `Fields` says what it does without counting its rounds
  (`Fields.readFields`).
- `readFields_invariant`: what every field keeps, the loop keeps.
- `fields_done`, `fields_cons`, `fields_optional`: how the loop goes over what a writer
  wrote, field by field.
- `readList`, for repeated fields.
- `readVarint` and `unzigzag`: the way back from `varint` and `zigzag`. What is read back is
  a prefix code (`Restores.isPrefixCode`).
-/

namespace FieldLoop

variable {α β κ μ : Type*}

/-- Reads a value off the front of a string, or fails. -/
abbrev Reader (β α : Type*) := List β → Option (α × List β)

/-- What was written from a valid value is read back, whatever follows it. -/
def Restores (valid : α → Prop) (write : α → List β) (read : Reader β α) : Prop :=
  ∀ a, valid a → ∀ rest, read (write a ++ rest) = some (a, rest)

/-- What is read goes into a message. -/
def assign (f : α → μ) (read : Reader β α) : Reader β μ := fun s =>
  (read s).map fun r => (f r.1, r.2)

variable {read : Reader β α} {s : List β} {write : α → List β}

/-- What is read comes from the reader. -/
theorem of_assign {f : α → μ} {rest : List β} {m : μ} (h : assign f read s = some (m, rest)) :
    ∃ a, read s = some (a, rest) ∧ f a = m := by
  obtain ⟨⟨a, rest'⟩, hread, heq⟩ := Option.map_eq_some_iff.mp h
  obtain ⟨rfl, rfl⟩ := Prod.mk.inj heq
  exact ⟨a, hread, rfl⟩

theorem assign_eq {rest : List β} {a : α} (h : read s = some (a, rest)) (f : α → μ) :
    assign f read s = some (f a, rest) := by
  rw [assign, h, Option.map_some]

/-! ## The loop -/

section loop

variable (tag : Reader β (Option κ)) (field : κ → μ → Reader β μ)

/-- Reads fields into `m` until the mark of the end. `fuel` bounds their number. -/
def readFields : Nat → μ → Reader β μ
  | 0, _, _ => none
  | fuel + 1, m, s =>
    match tag s with
    | none => none
    | some (none, rest) => some (m, rest)
    | some (some k, rest) =>
      match field k m rest with
      | none => none
      | some (m', rest') => readFields fuel m' rest'

/-- The fields in `s` turn `m` into `m'` and leave `rest`; each takes something off the
string. -/
inductive Fields : μ → List β → μ → List β → Prop
  | done {m : μ} {s rest : List β} : tag s = some (none, rest) → Fields m s m rest
  | field {m m₁ m' : μ} {s s₁ s₂ rest : List β} {k : κ} : tag s = some (some k, s₁) →
      field k m s₁ = some (m₁, s₂) → s₂.length < s.length → Fields m₁ s₂ m' rest →
      Fields m s m' rest

variable {tag field}

/-- The length of the string is fuel enough. -/
theorem Fields.readFields {m m' : μ} {s rest : List β} (h : Fields tag field m s m' rest) :
    ∀ fuel, s.length < fuel → FieldLoop.readFields tag field fuel m s = some (m', rest) := by
  induction h with
  | done htag =>
    intro fuel hfuel
    obtain ⟨fuel, rfl⟩ := Nat.exists_eq_succ_of_ne_zero (Nat.ne_zero_of_lt hfuel)
    simp only [FieldLoop.readFields, htag]
  | field htag hfield hlt _ ih =>
    intro fuel hfuel
    obtain ⟨fuel, rfl⟩ := Nat.exists_eq_succ_of_ne_zero (Nat.ne_zero_of_lt hfuel)
    simp only [FieldLoop.readFields, htag, hfield]
    exact ih fuel (by omega)

/-- What every field keeps, the loop keeps. -/
theorem readFields_invariant {P : μ → Prop}
    (hfield : ∀ k m s m' rest, P m → field k m s = some (m', rest) → P m') (fuel : Nat) :
    ∀ {m m' : μ} {s rest : List β}, P m →
      readFields tag field fuel m s = some (m', rest) → P m' := by
  induction fuel with
  | zero =>
    intro m m' s rest _ h
    cases h
  | succ fuel ih =>
    intro m m' s rest hm h
    unfold readFields at h
    split at h
    · cases h
    · cases h
      exact hm
    · split at h
      · cases h
      · rename_i hvalue
        exact ih (hfield _ _ _ _ _ hm hvalue) h

end loop

/-! ## What a writer wrote -/

section written

variable {tag : Reader β (Option κ)} {field : κ → μ → Reader β μ} {mark : Option κ → List β}
  {m m₁ m' : μ} {s rest : List β}

theorem fields_done (htag : Restores (fun _ => True) mark tag) :
    Fields tag field m (mark none ++ rest) m rest :=
  .done (htag none trivial rest)

/-- A field that is there. -/
theorem fields_cons (htag : Restores (fun _ => True) mark tag) {k : κ}
    (hmark : mark (some k) ≠ []) {value : List β}
    (hvalue : field k m (value ++ s) = some (m₁, s)) (h : Fields tag field m₁ s m' rest) :
    Fields tag field m (mark (some k) ++ (value ++ s)) m' rest := by
  refine .field (htag (some k) trivial (value ++ s)) hvalue ?_ h
  have hpos := List.length_pos_of_ne_nil hmark
  rw [List.length_append, List.length_append]
  omega

/-- A field that is left out if it has the value it would be set to. -/
theorem fields_optional (htag : Restores (fun _ => True) mark tag) {k : κ}
    (hmark : mark (some k) ≠ []) {c : Prop} [Decidable c] {value : List β}
    (hvalue : field k m (value ++ s) = some (m₁, s)) (hdefault : ¬ c → m₁ = m)
    (h : Fields tag field m₁ s m' rest) :
    Fields tag field m ((if c then mark (some k) ++ value else []) ++ s) m' rest := by
  by_cases hc : c
  · rw [if_pos hc, List.append_assoc]
    exact fields_cons htag hmark hvalue h
  · rw [if_neg hc, List.nil_append, ← hdefault hc]
    exact h

end written

/-! ## Repeated values -/

/-- Reads `n` values. -/
def readList (read : Reader β α) : Nat → Reader β (List α)
  | 0, s => some ([], s)
  | n + 1, s =>
    match read s with
    | none => none
    | some (a, rest) => (readList read n rest).map fun r => (a :: r.1, r.2)

/-- Every value of a list was read. -/
theorem of_mem_readList {P : α → Prop} (hread : ∀ s a rest, read s = some (a, rest) → P a)
    (n : Nat) :
    ∀ {s rest : List β} {l : List α}, readList read n s = some (l, rest) → ∀ a ∈ l, P a := by
  induction n with
  | zero =>
    intro s rest l h a ha
    cases h
    cases ha
  | succ n ih =>
    intro s rest l h
    unfold readList at h
    split at h
    · cases h
    · rename_i a rest' ha
      obtain ⟨⟨l', rest''⟩, hl, heq⟩ := Option.map_eq_some_iff.mp h
      obtain ⟨rfl, rfl⟩ := Prod.mk.inj heq
      intro b hb
      rcases List.mem_cons.mp hb with rfl | hb
      · exact hread _ _ _ ha
      · exact ih hl b hb

theorem readList_flatMap {valid : α → Prop} (hread : Restores valid write read) (l : List α)
    (hl : ∀ a ∈ l, valid a) (rest : List β) :
    readList read l.length (l.flatMap write ++ rest) = some (l, rest) := by
  induction l with
  | nil => rfl
  | cons a l ih =>
    have hrest := ih fun b hb => hl b (List.mem_cons_of_mem _ hb)
    rw [List.flatMap_cons, List.append_assoc, List.length_cons, readList,
      hread a (hl a (List.mem_cons_self ..))]
    simp only [hrest, Option.map_some]

/-- Two writers that are read back by one reader write different things for different
values. -/
theorem Restores.inj {valid : α → Prop} (h : Restores valid write read) {a b : α} (ha : valid a)
    (hb : valid b) {t : List β} (heq : write a ++ s = write b ++ t) : a = b ∧ s = t := by
  have hread := (h a ha s).symm.trans (heq ▸ h b hb t)
  exact Prod.mk.inj (Option.some.inj hread)

theorem Restores.isPrefixCode (h : Restores (fun _ => True) write read) :
    PrefixCode.IsPrefixCode write :=
  fun _ _ _ _ heq => h.inj trivial trivial heq

/-! ## Numbers -/

open PrefixCode

/-- Reads a number in base 128. -/
def readVarint : Reader (Fin 256) Nat
  | [] => none
  | b :: rest =>
    if b.val < 128 then some (b.val, rest)
    else (readVarint rest).map fun r => (b.val - 128 + 128 * r.1, r.2)

theorem readVarint_varintDigits (fuel : Nat) : ∀ {n : Nat}, n ≤ fuel → ∀ rest,
    readVarint (varintDigits fuel n ++ rest) = some (n, rest) := by
  induction fuel using Nat.strongRecOn with
  | ind fuel ih =>
    intro n hn rest
    rw [varintDigits_eq hn]
    by_cases hlast : n < 128
    · have hval : (Fin.ofNat 256 n).val = n := Nat.mod_eq_of_lt (by omega)
      rw [if_pos hlast, List.cons_append, readVarint, if_pos (by rw [hval]; exact hlast), hval]
      rfl
    · have hval : (Fin.ofNat 256 (128 + n % 128)).val = 128 + n % 128 :=
        Nat.mod_eq_of_lt (by omega)
      have hnot : ¬ (Fin.ofNat 256 (128 + n % 128)).val < 128 := by
        rw [hval]
        omega
      rw [if_neg hlast, List.cons_append, readVarint, if_neg hnot,
        ih (fuel - 1) (by omega) (by omega), Option.map_some, hval]
      dsimp only
      congr 2
      omega

theorem varint_restores : Restores (fun _ => True) varint readVarint :=
  fun n _ rest => readVarint_varintDigits n le_rfl rest

/-- The integer that `zigzag` made a number of. -/
def unzigzag (n : Nat) : Int := if n % 2 = 0 then (n / 2 : Nat) else -((n + 1) / 2 : Nat)

theorem unzigzag_zigzag (x : Int) : unzigzag (zigzag x) = x := by
  unfold unzigzag zigzag
  split <;> split <;> omega

theorem zigzag_restores : Restores (fun _ => True) (fun x => varint (zigzag x))
    (assign unzigzag readVarint) := by
  intro x _ rest
  rw [assign_eq (varint_restores _ trivial rest) unzigzag, unzigzag_zigzag]

end FieldLoop
