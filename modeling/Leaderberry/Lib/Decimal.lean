import Mathlib.Data.List.Basic

/-!
# Decimal text

Integers as ASCII text over bytes, and the scanner that reads them back.

- `formatInt`, `scanInt`: the text of an integer, and the integer at the head of a text.
- `scanInt_formatInt`: scanning inverts formatting up to the range of the result.
- `notMem_formatInt`: the text has only digits and a sign, so that any other byte separates
  two numbers.
- `field_inj`, `lastField_inj`: what a separator takes apart.
-/

namespace Decimal

/-- An ASCII character as a byte. -/
def byte (c : Char) : Fin 256 := Fin.ofNat 256 c.toNat

def isDigit (b : Fin 256) : Bool := 48 ≤ b.val && b.val ≤ 57

/-- The text of a natural number. -/
def formatNat (n : Nat) : List (Fin 256) := (Nat.toDigits 10 n).map byte

/-- The text of an integer. -/
def formatInt (n : Int) : List (Fin 256) :=
  if n < 0 then byte '-' :: formatNat n.natAbs else formatNat n.natAbs

/-- The number that a list of digits stands for. -/
def readNat (digits : List (Fin 256)) : Nat :=
  digits.foldl (fun value b => 10 * value + (b.val - 48)) 0

/-- The sign of a number and the text after it. -/
def scanSign : List (Fin 256) → Bool × List (Fin 256)
  | [] => (false, [])
  | b :: rest =>
    if b = byte '-' then (true, rest) else if b = byte '+' then (false, rest)
    else (false, b :: rest)

/-- The number at the head of a text, between `lo` and `hi`, and the text after it. -/
def scanInt (lo hi : Int) (text : List (Fin 256)) : Option (Int × List (Fin 256)) :=
  let (negative, text) := scanSign text
  let digits := text.takeWhile isDigit
  let value : Int := if negative then -readNat digits else readNat digits
  if digits = [] then none
  else if lo ≤ value ∧ value ≤ hi then some (value, text.dropWhile isDigit)
  else none

theorem val_byte {c : Char} (h : c.isDigit) : (byte c).val = c.toNat := by
  simp only [Char.isDigit, Bool.and_eq_true, decide_eq_true_eq, UInt32.le_iff_toNat_le] at h
  exact Nat.mod_eq_of_lt (Nat.lt_of_le_of_lt h.2 (by decide))

theorem isDigit_byte {c : Char} (h : c.isDigit) : isDigit (byte c) = true := by
  rw [isDigit, val_byte h]
  simp only [Char.isDigit, Bool.and_eq_true, decide_eq_true_eq, UInt32.le_iff_toNat_le] at h
  simpa using h

theorem isDigit_of_mem_formatNat {n : Nat} {b : Fin 256} (h : b ∈ formatNat n) :
    isDigit b = true := by
  obtain ⟨c, hc, rfl⟩ := List.mem_map.mp h
  exact isDigit_byte (Nat.isDigit_of_mem_toDigits (by decide) (by decide) hc)

theorem formatNat_ne_nil (n : Nat) : formatNat n ≠ [] := by
  simp [formatNat, Nat.toDigits_ne_nil]

theorem readNat_formatNat (n : Nat) : readNat (formatNat n) = n := by
  have hdigits : ∀ (l : List Char) (v : Nat), (∀ c ∈ l, c.isDigit) →
      (l.map byte).foldl (fun value b => 10 * value + (b.val - 48)) v =
        Nat.ofDigitChars 10 l v := by
    intro l
    induction l with
    | nil => exact fun v _ => Nat.ofDigitChars_nil.symm
    | cons c l ih =>
      intro v hl
      obtain ⟨hc, hl⟩ := List.forall_mem_cons.mp hl
      rw [List.map_cons, List.foldl_cons, ih _ hl, val_byte hc, Nat.ofDigitChars_cons]
      rfl
  rw [readNat, formatNat, hdigits _ _ fun c => Nat.isDigit_of_mem_toDigits (by decide) (by decide),
    Nat.ofDigitChars_ten_toDigits]

theorem scanSign_formatInt (n : Int) (rest : List (Fin 256)) :
    scanSign (formatInt n ++ rest) = (decide (n < 0), formatNat n.natAbs ++ rest) := by
  unfold formatInt
  split
  · rename_i hneg
    simp [scanSign, hneg]
  · rename_i hneg
    obtain ⟨b, digits, htext⟩ := List.exists_cons_of_ne_nil (formatNat_ne_nil n.natAbs)
    have hdigit : isDigit b = true :=
      isDigit_of_mem_formatNat (htext ▸ List.mem_cons_self : b ∈ formatNat n.natAbs)
    have hminus : b ≠ byte '-' := fun h => absurd (h ▸ hdigit) (by decide)
    have hplus : b ≠ byte '+' := fun h => absurd (h ▸ hdigit) (by decide)
    simp [htext, scanSign, hminus, hplus, hneg]

/-- Scanning gives the number back if it is in range, and fails otherwise. -/
theorem scanInt_formatInt (lo hi n : Int) {sep : Fin 256} (hsep : isDigit sep = false)
    (rest : List (Fin 256)) :
    scanInt lo hi (formatInt n ++ sep :: rest) =
      if lo ≤ n ∧ n ≤ hi then some (n, sep :: rest) else none := by
  have hall : ∀ b ∈ formatNat n.natAbs, isDigit b = true := fun b => isDigit_of_mem_formatNat
  have htake : (formatNat n.natAbs ++ sep :: rest).takeWhile isDigit = formatNat n.natAbs := by
    rw [List.takeWhile_append_of_pos hall, List.takeWhile_cons_of_neg (by simp [hsep]),
      List.append_nil]
  have hdrop : (formatNat n.natAbs ++ sep :: rest).dropWhile isDigit = sep :: rest := by
    rw [List.dropWhile_append_of_pos hall, List.dropWhile_cons_of_neg (by simp [hsep])]
  have hvalue : (if decide (n < 0) = true then -(n.natAbs : Int) else n.natAbs) = n := by
    split <;> rename_i hneg <;> simp only [decide_eq_true_eq] at hneg <;> omega
  rw [scanInt, scanSign_formatInt]
  simp only [htake, hdrop, readNat_formatNat, hvalue, if_neg (formatNat_ne_nil _)]

/-- A byte that is no digit and no minus sign is not in the text of a number. -/
theorem notMem_formatInt {sep : Fin 256} (hsep : isDigit sep = false) (hminus : sep ≠ byte '-')
    (n : Int) : sep ∉ formatInt n := by
  have hnat : ∀ m, sep ∉ formatNat m := by
    intro m hmem
    rw [isDigit_of_mem_formatNat hmem] at hsep
    cases hsep
  unfold formatInt
  split
  · simp [hminus, hnat]
  · exact hnat _

theorem formatInt_injective : Function.Injective formatInt := by
  intro m n heq
  have hsep : isDigit (byte '/') = false := by decide
  have hm := scanInt_formatInt (min m n) (max m n) m hsep []
  have hn := scanInt_formatInt (min m n) (max m n) n hsep []
  rw [heq, hn, if_pos (by omega), if_pos (by omega)] at hm
  exact (congrArg Prod.fst (Option.some.inj hm)).symm

/-! ## Separated fields -/

section fields

variable {α : Type*} {sep : α} {a a' b b' : List α}

/-- The first separator ends the first field. -/
theorem field_inj (ha : sep ∉ a) (ha' : sep ∉ a') (heq : a ++ sep :: b = a' ++ sep :: b') :
    a = a' ∧ b = b' := by
  induction a generalizing a' with
  | nil =>
    cases a' with
    | nil => exact ⟨rfl, (List.cons.inj heq).2⟩
    | cons x a' => exact absurd (List.cons.inj heq).1 fun h => ha' (h ▸ List.mem_cons_self)
  | cons x a ih =>
    cases a' with
    | nil => exact absurd (List.cons.inj heq).1 fun h => ha (h ▸ List.mem_cons_self)
    | cons x' a' =>
      obtain ⟨rfl, htail⟩ := List.cons.inj heq
      obtain ⟨rfl, hrest⟩ := ih (fun h => ha (List.mem_cons_of_mem _ h))
        (fun h => ha' (List.mem_cons_of_mem _ h)) htail
      exact ⟨rfl, hrest⟩

/-- The last separator starts the last field. -/
theorem lastField_inj (hb : sep ∉ b) (hb' : sep ∉ b') (heq : a ++ sep :: b = a' ++ sep :: b') :
    a = a' ∧ b = b' := by
  have hrev := congrArg List.reverse heq
  simp only [List.reverse_append, List.reverse_cons, List.append_assoc, List.singleton_append]
    at hrev
  obtain ⟨h₁, h₂⟩ := field_inj (by simpa using hb) (by simpa using hb') hrev
  exact ⟨List.reverse_injective h₂, List.reverse_injective h₁⟩

end fields

end Decimal
