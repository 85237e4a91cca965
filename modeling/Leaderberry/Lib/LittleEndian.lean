import Mathlib.Data.Nat.Bitwise

/-!
# Words as bytes, lowest first

A word is written byte by byte with shifts to the right, and read back by or-ing shifts to
the left. Both are compared bit by bit: bit `i` of the word is bit `i % 8` of byte `i / 8`.

- `ofBytes_byteAt`: a word is read back from its bytes.
- `byteAt_ofBytes`: the bytes that were read are written again.
-/

namespace LittleEndian

variable {w : Nat}

/-- Byte `j` of a word. -/
def byteAt (word : BitVec w) (j : Nat) : Fin 256 := ((word >>> (j * 8)).setWidth 8).toFin

/-- The word with the bytes `data 0`, `data 1` and so on, `n` of them. -/
def ofBytes (w n : Nat) (data : Nat → Fin 256) : BitVec w :=
  (List.range n).foldl (fun word j => word ||| BitVec.ofNat w (data j).val <<< (j * 8)) 0

theorem testBit_byteAt (word : BitVec w) (j : Nat) {k : Nat} (hk : k < 8) :
    (byteAt word j).val.testBit k = word.getLsbD (j * 8 + k) := by
  show ((word >>> (j * 8)).setWidth 8).toNat.testBit k = _
  rw [BitVec.testBit_toNat, BitVec.getLsbD_setWidth, BitVec.getLsbD_ushiftRight,
    decide_eq_true hk, Bool.true_and]

/-- A byte has no bits from the eighth on. -/
theorem testBit_eq_false (b : Fin 256) {k : Nat} (hk : 8 ≤ k) : b.val.testBit k = false :=
  Nat.testBit_lt_two_pow (b.isLt.trans_le (Nat.pow_le_pow_right (n := 2) (by decide) hk))

/-- The contribution of byte `j` to the word. -/
theorem getLsbD_shifted (b : Fin 256) (j : Nat) {i : Nat} (hi : i < w) :
    (BitVec.ofNat w b.val <<< (j * 8)).getLsbD i =
      (decide (i / 8 = j) && b.val.testBit (i % 8)) := by
  rw [BitVec.getLsbD_shiftLeft, BitVec.getLsbD_ofNat, decide_eq_true hi, Bool.true_and]
  rcases Nat.lt_trichotomy (i / 8) j with hlow | rfl | hhigh
  · -- the bit is below the byte
    rw [decide_eq_true (by omega : i < j * 8), decide_eq_false (by omega : ¬ i / 8 = j)]
    rfl
  · rw [decide_eq_false (by omega : ¬ i < i / 8 * 8), decide_eq_true rfl,
      decide_eq_true (by omega : i - i / 8 * 8 < w), show i - i / 8 * 8 = i % 8 by omega]
    rfl
  · -- the bit is above the byte
    rw [testBit_eq_false b (by omega : 8 ≤ i - j * 8), decide_eq_false (by omega : ¬ i / 8 = j)]
    simp

/-- Bit `i` of the word that was read is bit `i % 8` of byte `i / 8`. -/
theorem getLsbD_ofBytes (n : Nat) (data : Nat → Fin 256) {i : Nat} (hi : i < w) :
    (ofBytes w n data).getLsbD i =
      (decide (i / 8 < n) && (data (i / 8)).val.testBit (i % 8)) := by
  induction n with
  | zero => exact BitVec.getLsbD_zero
  | succ n ih =>
    have hstep : ofBytes w (n + 1) data =
        ofBytes w n data ||| BitVec.ofNat w (data n).val <<< (n * 8) := by
      rw [ofBytes, List.range_succ, List.foldl_append]
      rfl
    rw [hstep, BitVec.getLsbD_or, ih, getLsbD_shifted _ n hi]
    by_cases hbyte : i / 8 = n
    · subst hbyte
      simp
    · rw [decide_eq_false hbyte, Bool.false_and, Bool.or_false]
      congr 2
      exact propext (by omega)

/-- **A word is read back from its bytes.** -/
theorem ofBytes_byteAt {n : Nat} (hn : w = n * 8) (word : BitVec w) {data : Nat → Fin 256}
    (hdata : ∀ j < n, data j = byteAt word j) : ofBytes w n data = word := by
  refine BitVec.eq_of_getLsbD_eq fun i hi => ?_
  have hj : i / 8 < n := by omega
  rw [getLsbD_ofBytes n data hi, decide_eq_true hj, Bool.true_and, hdata _ hj,
    testBit_byteAt word _ (Nat.mod_lt i (by decide)), Nat.div_add_mod' i 8]

/-- **The bytes that were read are written again.** -/
theorem byteAt_ofBytes {n : Nat} (hn : n * 8 ≤ w) (data : Nat → Fin 256) {j : Nat} (hj : j < n) :
    byteAt (ofBytes w n data) j = data j := by
  refine Fin.ext (Nat.eq_of_testBit_eq fun k => ?_)
  by_cases hk : k < 8
  · have hword : j * 8 + k < w := by omega
    have hdiv : (j * 8 + k) / 8 = j := by omega
    have hmod : (j * 8 + k) % 8 = k := by omega
    rw [testBit_byteAt _ j hk, getLsbD_ofBytes n data hword, hdiv, hmod, decide_eq_true hj,
      Bool.true_and]
  · rw [testBit_eq_false _ (by omega), testBit_eq_false _ (by omega)]

end LittleEndian
