import Mathlib.Data.List.GetD
import Mathlib.Data.List.Induction
import Leaderberry.Lib.LittleEndian
import Leaderberry.Types.PartSet

/-!
# Bitmaps of block parts (`types/block_parts.go`)

A `PartSetBitmap` says which parts a peer has. It is made locally, bit by bit, or decoded
from what a peer sent. The bytes of a bitmap are its total and its words, lowest byte first,
and the two directions fit together (`codec_round_trip`).

The words have room for more bits than there are parts. `Has` never looks at the rest of the
last word, and `Set` never writes there, but a decoded bitmap can have bits there
(`Stray`), and `Diff` reads the words of the other bitmap up to the end of the last one. So
`diff_eq_difference_iff`: the difference is the set difference exactly if the other bitmap
has no stray bit at a part that this one has.
-/

namespace Leaderberry

/-- `PartSetBitmap`. The total is a `uint16`, and there are as many words as the parts
need. -/
structure PartSetBitmap where
  bits : List (BitVec 64)
  total : Nat
  total_lt : total < 2 ^ 16
  words : bits.length = (total + 63) / 64
deriving DecidableEq

/-- Why `PartSetBitmapFromBytes` fails. -/
inductive BitmapError where
  | tooShort
  | tooManyParts (total : Nat)
  | incomplete
deriving DecidableEq

namespace PartSetBitmap

variable {data : Bytes} {pb : PartSetBitmap}

/-- `NewPartSetBitmap`. -/
def new (total : Fin (2 ^ 16)) : PartSetBitmap where
  bits := emptyBits total
  total := total
  total_lt := total.isLt
  words := length_emptyBits total

/-- `Set`. -/
def set (pb : PartSetBitmap) (index : Nat) : PartSetBitmap :=
  if pb.total ≤ index then pb
  else { pb with bits := setBit pb.bits index, words := (length_setBit ..).trans pb.words }

/-- `Has`. -/
def has (pb : PartSetBitmap) (index : Nat) : Bool :=
  if pb.total ≤ index then false else hasBit pb.bits index

/-- `Missing`. -/
def missing (pb : PartSetBitmap) : List Nat :=
  (List.range pb.total).filter fun i => !hasBit pb.bits i

/-- The total in the first two bytes of a message. -/
def decodeTotal (low high : Byte) : Nat :=
  (BitVec.ofNat 16 low.val ||| BitVec.ofNat 16 high.val <<< 8).toNat

/-- A word from its eight bytes, lowest first. -/
def decodeWord (data : Bytes) : BitVec 64 :=
  (List.range 8).foldl
    (fun word j => word ||| BitVec.ofNat 64 (data.getD j 0).val <<< (j * 8)) 0

/-- A word as eight bytes, lowest first. -/
def encodeWord (word : BitVec 64) : Bytes :=
  (List.range 8).map fun j => LittleEndian.byteAt word j

/-- `ToBytes`: two bytes for the total, then the words. -/
def toBytes (pb : PartSetBitmap) : Bytes :=
  let total := BitVec.ofNat 16 pb.total
  LittleEndian.byteAt total 0 :: LittleEndian.byteAt total 1 :: pb.bits.flatMap encodeWord

/-- `PartSetBitmapFromBytes`. Bytes after the words are ignored. -/
def fromBytes : Bytes → Except BitmapError PartSetBitmap
  | low :: high :: data =>
    let total := decodeTotal low high
    if maxBlockParts < total then .error (.tooManyParts total)
    else if data.length < (total + 63) / 64 * 8 then .error .incomplete
    else .ok
      { bits := (List.range ((total + 63) / 64)).map fun i => decodeWord (data.drop (i * 8))
        total := total
        total_lt := BitVec.isLt _
        words := by rw [List.length_map, List.length_range] }
  | _ => .error .tooShort

/-- `Diff`. Neither bitmap's total guards the look into the words of `other`. -/
def diff (pb other : PartSetBitmap) : List Nat :=
  (List.range pb.total).filter fun i =>
    let hasSelf := hasBit pb.bits i
    let hasOther := if i / 64 < other.bits.length then hasBit other.bits i else false
    hasSelf && !hasOther

/-! ## Bytes -/

theorem length_encodeWord (word : BitVec 64) : (encodeWord word).length = 8 := by
  rw [encodeWord, List.length_map, List.length_range]

theorem decodeWord_encodeWord (word : BitVec 64) (rest : Bytes) :
    decodeWord (encodeWord word ++ rest) = word := by
  refine LittleEndian.ofBytes_byteAt (n := 8) rfl word fun j hj => ?_
  rw [List.getD_append _ _ _ _ (by rwa [length_encodeWord]),
    List.getD_eq_getElem _ _ (by rwa [length_encodeWord])]
  simp only [encodeWord, List.getElem_map, List.getElem_range]

theorem encodeWord_decodeWord (hdata : 8 ≤ data.length) :
    encodeWord (decodeWord data) = data.take 8 := by
  have hlength : (encodeWord (decodeWord data)).length = (data.take 8).length := by
    rw [length_encodeWord, List.length_take_of_le hdata]
  refine List.ext_getElem hlength fun j hj _ => ?_
  rw [length_encodeWord] at hj
  simp only [encodeWord, List.getElem_map, List.getElem_range, List.getElem_take]
  rw [← List.getD_eq_getElem data 0 (hj.trans_le hdata)]
  exact LittleEndian.byteAt_ofBytes (by decide) (fun j => data.getD j 0) hj

theorem length_flatMap_encodeWord (words : List (BitVec 64)) :
    (words.flatMap encodeWord).length = words.length * 8 := by
  induction words with
  | nil => rfl
  | cons word words ih =>
    rw [List.flatMap_cons, List.length_append, ih, length_encodeWord, List.length_cons]
    omega

/-- The words are read back from their bytes. -/
theorem decode_words (words : List (BitVec 64)) :
    ((List.range words.length).map fun i =>
      decodeWord ((words.flatMap encodeWord).drop (i * 8))) = words := by
  induction words with
  | nil => rfl
  | cons word words ih =>
    rw [List.length_cons, List.range_succ_eq_map, List.map_cons, List.map_map, List.flatMap_cons]
    congr 1
    · exact decodeWord_encodeWord word _
    · -- behind the first word, everything is as before
      have hskip (i : Nat) : (encodeWord word ++ words.flatMap encodeWord).drop ((i + 1) * 8) =
          (words.flatMap encodeWord).drop (i * 8) := by
        have hindex : (i + 1) * 8 = (encodeWord word).length + i * 8 := by
          rw [length_encodeWord]
          omega
        rw [hindex, List.drop_length_add_append]
      refine Eq.trans (List.map_congr_left fun i _ => ?_) ih
      exact congrArg decodeWord (hskip i)

/-- The bytes of the words that were read are the bytes they were read from. -/
theorem encode_words (n : Nat) (hdata : n * 8 ≤ data.length) :
    (((List.range n).map fun i => decodeWord (data.drop (i * 8))).flatMap encodeWord) =
      data.take (n * 8) := by
  induction n with
  | zero => rfl
  | succ n ih =>
    have hword : 8 ≤ (data.drop (n * 8)).length := by
      rw [List.length_drop]
      omega
    rw [List.range_succ, List.map_append, List.flatMap_append, ih (by omega), List.map_singleton,
      List.flatMap_singleton, encodeWord_decodeWord hword, ← List.take_add, Nat.succ_mul]

theorem decodeTotal_eq (low high : Byte) :
    decodeTotal low high = (LittleEndian.ofBytes 16 2 fun j => [low, high].getD j 0).toNat := by
  have hzero : (0#16 ||| BitVec.ofNat 16 low.val <<< 0) = BitVec.ofNat 16 low.val := by
    rw [BitVec.zero_or, BitVec.shiftLeft_zero]
  show _ = ((0#16 ||| BitVec.ofNat 16 low.val <<< 0) ||| BitVec.ofNat 16 high.val <<< 8).toNat
  rw [hzero]
  rfl

/-- The total is read back from its two bytes. -/
theorem decodeTotal_byteAt {total : Nat} (htotal : total < 2 ^ 16) :
    decodeTotal (LittleEndian.byteAt (BitVec.ofNat 16 total) 0)
      (LittleEndian.byteAt (BitVec.ofNat 16 total) 1) = total := by
  rw [decodeTotal_eq, LittleEndian.ofBytes_byteAt (n := 2) rfl (BitVec.ofNat 16 total),
    BitVec.toNat_ofNat, Nat.mod_eq_of_lt htotal]
  intro j hj
  match j, hj with
  | 0, _ => rfl
  | 1, _ => rfl

theorem byteAt_decodeTotal (low high : Byte) {j : Nat} (hj : j < 2) :
    LittleEndian.byteAt (BitVec.ofNat 16 (decodeTotal low high)) j = [low, high].getD j 0 := by
  rw [decodeTotal_eq, BitVec.ofNat_toNat, BitVec.setWidth_eq]
  exact LittleEndian.byteAt_ofBytes (by decide) (fun j => [low, high].getD j 0) hj

/-- A bitmap that is not too large is read back as it was. -/
theorem fromBytes_toBytes (htotal : pb.total ≤ maxBlockParts) :
    fromBytes pb.toBytes = .ok pb := by
  have hdecode := decodeTotal_byteAt pb.total_lt
  have hlength : ¬ (pb.bits.flatMap encodeWord).length < (pb.total + 63) / 64 * 8 := by
    rw [length_flatMap_encodeWord, pb.words]
    exact lt_irrefl _
  have hwords := decode_words pb.bits
  rw [pb.words] at hwords
  unfold toBytes fromBytes
  dsimp only
  simp only [hdecode]
  rw [if_neg (Nat.not_lt.mpr htotal), if_neg hlength]
  simp only [hwords]

/-- What was read is written again, up to the end of the words. -/
theorem toBytes_of_fromBytes {b : PartSetBitmap} (h : fromBytes data = .ok b) :
    b.toBytes = data.take (2 + 8 * ((b.total + 63) / 64)) := by
  match data, h with
  | low :: high :: data, h =>
    unfold fromBytes at h
    dsimp only at h
    split at h
    · cases h
    split at h
    · cases h
    rename_i hlength
    cases h
    have hlow := byteAt_decodeTotal low high (by decide : 0 < 2)
    have hhigh := byteAt_decodeTotal low high (by decide : 1 < 2)
    have hwords := encode_words ((decodeTotal low high + 63) / 64) (Nat.not_lt.mp hlength)
    unfold toBytes
    dsimp only
    rw [hlow, hhigh, hwords, Nat.add_comm 2, Nat.mul_comm 8]
    rfl

@[simp] theorem total_set (pb : PartSetBitmap) (index : Nat) : (pb.set index).total = pb.total := by
  unfold set
  split
  · rfl
  · rfl

/-- `Set` calls leave the total alone. -/
theorem total_foldl_set (indices : List Nat) :
    ∀ pb : PartSetBitmap, (indices.foldl set pb).total = pb.total := by
  induction indices with
  | nil => exact fun _ => rfl
  | cons index rest ih =>
    intro pb
    rw [List.foldl_cons, ih, total_set]

/-- **The codec of bitmaps.** A bitmap that was made locally is read back with its total and
its parts. And whatever is accepted, the bytes of the result are the bytes that were read. -/
theorem codec_round_trip :
    (∀ (total : Fin (2 ^ 16)) (indices : List Nat), (total : Nat) ≤ maxBlockParts →
      ∃ b, fromBytes (indices.foldl set (new total)).toBytes = .ok b ∧
        b.total = (indices.foldl set (new total)).total ∧
        ∀ i, b.has i = (indices.foldl set (new total)).has i) ∧
    ∀ (data : Bytes) (b : PartSetBitmap), fromBytes data = .ok b →
      b.toBytes = data.take (2 + 8 * ((b.total + 63) / 64)) := by
  constructor
  · intro total indices htotal
    have hle : (indices.foldl set (new total)).total ≤ maxBlockParts := by
      rw [total_foldl_set]
      exact htotal
    exact ⟨_, fromBytes_toBytes hle, rfl, fun _ => rfl⟩
  · exact fun _ _ => toBytes_of_fromBytes

/-- A bitmap of two words, and a message with a byte too many. -/
theorem codec_round_trip_two_words :
    (∃ b, fromBytes ([0, 63, 64, 69, 70].foldl set (new 70)).toBytes = .ok b ∧ b.total = 70 ∧
      b.has 69 = true ∧ b.has 68 = false) ∧
    ∃ b, fromBytes [5, 0, 0, 4, 0, 0, 0, 0, 0, 0, 7] = .ok b ∧
      b.toBytes = [5, 0, 0, 4, 0, 0, 0, 0, 0, 0] := by
  constructor
  · obtain ⟨b, hok, htotal, hhas⟩ :=
      codec_round_trip.1 70 [0, 63, 64, 69, 70] (by decide)
    exact ⟨b, hok, htotal, (hhas 69).trans (by decide), (hhas 68).trans (by decide)⟩
  · have hok : fromBytes [5, 0, 0, 4, 0, 0, 0, 0, 0, 0, 7] =
        .ok ⟨[0x400#64], 5, by decide, rfl⟩ := by decide
    exact ⟨_, hok, codec_round_trip.2 _ _ hok⟩

/-! ## The difference -/

/-- A bit is set behind the last part. -/
def Stray (pb : PartSetBitmap) (index : Nat) : Prop :=
  pb.total ≤ index ∧ hasBit pb.bits index = true

theorem has_eq_true_iff (pb : PartSetBitmap) (index : Nat) :
    pb.has index = true ↔ index < pb.total ∧ hasBit pb.bits index = true := by
  unfold has
  by_cases hindex : pb.total ≤ index
  · rw [if_pos hindex]
    refine iff_of_false Bool.false_ne_true ?_
    rintro ⟨hlt, -⟩
    exact absurd hlt (Nat.not_lt.mpr hindex)
  · rw [if_neg hindex, and_iff_right (Nat.not_le.mp hindex)]

/-- What the words show is what `Has` says, or stray. -/
theorem hasBit_iff (pb : PartSetBitmap) (index : Nat) :
    hasBit pb.bits index = true ↔ pb.has index = true ∨ pb.Stray index := by
  rw [has_eq_true_iff, Stray]
  constructor
  · intro hbit
    rcases Nat.lt_or_ge index pb.total with hlt | hge
    · exact .inl ⟨hlt, hbit⟩
    · exact .inr ⟨hge, hbit⟩
  · rintro (⟨-, hbit⟩ | ⟨-, hbit⟩)
    · exact hbit
    · exact hbit

/-- There are no bits behind the last word. -/
theorem hasBit_of_words_le {bits : List (BitVec 64)} {index : Nat}
    (hindex : bits.length ≤ index / 64) : hasBit bits index = false := by
  rw [hasBit_eq, List.getD_eq_default _ _ hindex]
  exact BitVec.getLsbD_zero

theorem mem_diff {other : PartSetBitmap} {i : Nat} :
    i ∈ pb.diff other ↔ pb.has i = true ∧ ¬ hasBit other.bits i = true := by
  have hother : (if i / 64 < other.bits.length then hasBit other.bits i else false) =
      hasBit other.bits i := by
    split
    · rfl
    · rename_i hwords
      exact (hasBit_of_words_le (Nat.not_lt.mp hwords)).symm
  unfold diff
  rw [List.mem_filter, List.mem_range, has_eq_true_iff]
  dsimp only
  rw [hother, Bool.and_eq_true, Bool.not_eq_true', ← Bool.not_eq_true, and_assoc]

/-- **The difference of two bitmaps.** `Diff` lists the parts that this bitmap has and the
other has not, in increasing order, exactly if the other has no stray bit at such a part. -/
theorem diff_eq_difference_iff (a b : PartSetBitmap) :
    ((a.diff b).Pairwise (· < ·) ∧
      ∀ i, i ∈ a.diff b ↔ a.has i = true ∧ ¬ b.has i = true) ↔
    ∀ i, a.has i = true → ¬ b.Stray i := by
  constructor
  · rintro ⟨-, hmem⟩ i ha hstray
    -- a stray bit is not a part that the other has, and the part is not listed
    have hb : ¬ b.has i = true := by
      rw [has_eq_true_iff]
      rintro ⟨hlt, -⟩
      exact absurd hlt (Nat.not_lt.mpr hstray.1)
    exact (mem_diff.mp ((hmem i).mpr ⟨ha, hb⟩)).2 hstray.2
  · intro hclean
    refine ⟨List.pairwise_lt_range.filter _, fun i => ?_⟩
    rw [mem_diff]
    refine and_congr_right fun ha => not_congr ?_
    rw [hasBit_iff]
    exact or_iff_left (hclean i ha)

/-! ## A stray bit -/

/-- Eleven parts, of which the last is there. -/
def eleventh : PartSetBitmap := (new 11).set 10

/-- A message: five parts, and bit 10 of the word. -/
def strayMessage : Bytes := [5, 0, 0, 4, 0, 0, 0, 0, 0, 0]

/-- The message is accepted; its bitmap does not have part 10, and still the part is not
listed. -/
theorem diff_skips_part :
    ∃ b, fromBytes strayMessage = .ok b ∧ eleventh.has 10 = true ∧ b.has 10 = false ∧
      eleventh.diff b = [] :=
  ⟨⟨[0x400#64], 5, by decide, rfl⟩, by decide, by decide, by decide, by decide⟩

end PartSetBitmap

end Leaderberry
