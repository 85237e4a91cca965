import Mathlib.Algebra.Group.Nat.Defs
import Leaderberry.Lib.RecordStream
import Leaderberry.Types.Basic

/-!
# The record format of the log (`wal/file_wal.go`, `encoder` and `decoder`)

A record is the length of the encoded message (four bytes, big endian), the encoded
message and its CRC32. The writer accepts any length; the reader rejects lengths of
`maxMsgSize` and more.

- `decode` is `decoder.Decode`. A string that ends between two fields of a record is a
  clean end for it, one that ends within a field is not: `io.ReadFull` tells the two apart
  by the number of bytes it got.
- `framed_of_size`: a record below `maxMsgSize` is read back.
- `decode_oversized`: a longer one is an error.
-/

namespace Leaderberry.Wal

open RecordStream

/-- What the log knows of a message: its height, whether it is an EndHeight message, and
its Cramberry encoding, which may fail and which decodes to the message. -/
class WalCodec (M : Type) where
  height : M → Int
  isEndHeight : M → Bool
  marshal : M → Option Bytes
  unmarshal : Bytes → Option M
  /-- `crc32.ChecksumIEEE`. -/
  crc32 : Bytes → BitVec 32
  unmarshal_marshal : ∀ {m : M} {data : Bytes}, marshal m = some data → unmarshal data = some m

/-- The errors of the log. -/
inductive WalError where
  | closed
  | marshalFailed
  | corruptedSize (length : Nat)
  | crcMismatch (expected got : Nat)
  | unexpectedEOF
  | unmarshalFailed
  | notFound
  | openFailed (index : Nat)
  | removeFailed (index : Nat)
deriving DecidableEq

/-- `maxMsgSize`, the exclusive bound of the reader. -/
def maxMsgSize : Nat := 10 * 1024 * 1024

/-! ## Big-endian integers -/

/-- `binary.BigEndian.PutUint32`, of a number that is first converted to `uint32`. -/
def putUint32 (n : Nat) : Bytes :=
  [Fin.ofNat 256 (n / 2 ^ 24), Fin.ofNat 256 (n / 2 ^ 16), Fin.ofNat 256 (n / 2 ^ 8),
    Fin.ofNat 256 n]

/-- `binary.BigEndian.Uint32`. -/
def uint32 (s : Bytes) : Nat := s.foldl (fun n (b : Byte) => n * 256 + b.val) 0

theorem uint32_putUint32 (n : Nat) : uint32 (putUint32 n) = n % 2 ^ 32 := by
  simp only [uint32, putUint32, List.foldl_cons, List.foldl_nil, Fin.val_ofNat]
  omega

theorem length_putUint32 (n : Nat) : (putUint32 n).length = 4 := rfl

/-! ## Records -/

/-- How `io.ReadFull` fails: nothing was read, or not enough. -/
inductive ReadError where
  | eof
  | unexpectedEOF
deriving DecidableEq

/-- `io.ReadFull` for a buffer of `n` bytes: what was read and what is left. -/
def readFull (n : Nat) (s : Bytes) : Except ReadError (Bytes × Bytes) :=
  if n = 0 then .ok ([], s)
  else if s.length = 0 then .error .eof
  else if s.length < n then .error .unexpectedEOF
  else .ok (s.take n, s.drop n)

theorem readFull_append (a b : Bytes) : readFull a.length (a ++ b) = .ok (a, b) := by
  unfold readFull
  split
  · rename_i h
    rw [List.length_eq_zero_iff.mp h, List.nil_append]
  · rw [if_neg (by simp only [List.length_append]; omega),
      if_neg (by simp only [List.length_append]; omega), List.take_left, List.drop_left]

theorem readFull_ok {n : Nat} {s a b : Bytes} (h : readFull n s = .ok (a, b)) :
    a.length = n ∧ s = a ++ b := by
  unfold readFull at h
  split at h
  · rename_i hn
    cases h
    exact ⟨hn.symm, rfl⟩
  split at h
  · cases h
  split at h
  · cases h
  · rename_i hlen
    cases h
    exact ⟨List.length_take_of_le (not_lt.mp hlen), (List.take_append_drop n s).symm⟩

section codec

variable {M : Type} [WalCodec M] {m : M}

variable (M) in
/-- A failed read of a field: `io.EOF` is passed on as it is. -/
def ReadError.step : ReadError → Step M Byte WalError
  | .eof => .eof
  | .unexpectedEOF => .error .unexpectedEOF

variable (M) in
/-- `decoder.Decode`. -/
def decode (s : Bytes) : Step M Byte WalError :=
  match readFull 4 s with
  | .error e => e.step M
  | .ok (lengthBytes, s) =>
    if maxMsgSize ≤ uint32 lengthBytes then .error (.corruptedSize (uint32 lengthBytes))
    else
      match readFull (uint32 lengthBytes) s with
      | .error e => e.step M
      | .ok (data, s) =>
        match readFull 4 s with
        | .error e => e.step M
        | .ok (crcBytes, rest) =>
          let expectedCRC := uint32 crcBytes
          let actualCRC := (WalCodec.crc32 M data).toNat
          if expectedCRC ≠ actualCRC then .error (.crcMismatch expectedCRC actualCRC)
          else
            match WalCodec.unmarshal data with
            | none => .error .unmarshalFailed
            | some msg => .record msg rest

theorem decode_shrinks {s : Bytes} {rest : Bytes} (h : decode M s = .record m rest) :
    rest.length < s.length := by
  unfold decode at h
  split at h
  · rename_i e _
    cases e <;> cases h
  rename_i lengthBytes s₁ h₁
  split at h
  · cases h
  split at h
  · rename_i e _
    cases e <;> cases h
  rename_i data s₂ h₂
  split at h
  · rename_i e _
    cases e <;> cases h
  rename_i crcBytes s₃ h₃
  dsimp only at h
  split at h
  · cases h
  split at h
  · cases h
  cases h
  obtain ⟨hl₁, rfl⟩ := readFull_ok h₁
  obtain ⟨hl₂, rfl⟩ := readFull_ok h₂
  obtain ⟨hl₃, rfl⟩ := readFull_ok h₃
  simp only [List.length_append]
  omega

variable (M) in
/-- The decoder of the log. -/
def decoder : Decoder M Byte WalError where
  step := decode M
  shrinks := decode_shrinks

variable (M) in
/-- What `encoder.Encode` writes for encoded data. -/
def frame (data : Bytes) : Bytes :=
  putUint32 data.length ++ (data ++ putUint32 (WalCodec.crc32 M data).toNat)

/-- What it writes for a message, if the message can be encoded. -/
def record (m : M) : Bytes := ((WalCodec.marshal m).map (frame M)).getD []

/-- The encoded size of a message. -/
def msgSize (m : M) : Nat := ((WalCodec.marshal m).map List.length).getD 0

theorem length_frame (data : Bytes) : (frame M data).length = data.length + 8 := by
  simp only [frame, List.length_append, length_putUint32]
  omega

/-! ## Reading back -/

/-- The first field of a record: the length, which the size limit is checked on. -/
theorem decode_length (n : Nat) (s : Bytes) :
    decode M (putUint32 n ++ s) =
      if maxMsgSize ≤ n % 2 ^ 32 then .error (.corruptedSize (n % 2 ^ 32))
      else
        match readFull (n % 2 ^ 32) s with
        | .error e => e.step M
        | .ok (data, s) =>
          match readFull 4 s with
          | .error e => e.step M
          | .ok (crcBytes, rest) =>
            if uint32 crcBytes ≠ (WalCodec.crc32 M data).toNat then
              .error (.crcMismatch (uint32 crcBytes) (WalCodec.crc32 M data).toNat)
            else
              match WalCodec.unmarshal data with
              | none => .error .unmarshalFailed
              | some msg => .record msg rest := by
  have hread : readFull 4 (putUint32 n ++ s) = .ok (putUint32 n, s) :=
    readFull_append (putUint32 n) s
  rw [decode, hread]
  simp only [uint32_putUint32]

theorem decode_frame {data : Bytes} (hdata : WalCodec.unmarshal data = some m)
    (hsize : data.length < maxMsgSize) (rest : Bytes) :
    decode M (frame M data ++ rest) = .record m rest := by
  have hlen : data.length % 2 ^ 32 = data.length :=
    Nat.mod_eq_of_lt (hsize.trans (by decide))
  have hcrc : (WalCodec.crc32 M data).toNat % 2 ^ 32 = (WalCodec.crc32 M data).toNat :=
    Nat.mod_eq_of_lt (WalCodec.crc32 M data).isLt
  have hread : readFull 4 (putUint32 (WalCodec.crc32 M data).toNat ++ rest) =
      .ok (putUint32 (WalCodec.crc32 M data).toNat, rest) :=
    readFull_append (putUint32 (WalCodec.crc32 M data).toNat) rest
  rw [frame, List.append_assoc, List.append_assoc, decode_length, hlen,
    if_neg (not_le.mpr hsize), readFull_append]
  dsimp only
  rw [hread]
  dsimp only
  rw [uint32_putUint32, hcrc, if_neg (by simp), hdata]

/-- A record below the size limit is read back. -/
theorem framed_of_size (hm : (WalCodec.marshal m).isSome) (hsize : msgSize m < maxMsgSize) :
    (decoder M).Framed record m := by
  obtain ⟨data, hdata⟩ := Option.isSome_iff_exists.mp hm
  intro rest
  rw [msgSize, hdata] at hsize
  rw [record, hdata]
  exact decode_frame (WalCodec.unmarshal_marshal hdata) hsize rest

/-- A record of the limit or more is an error (if its length fits the length field). -/
theorem decode_oversized (hsize : maxMsgSize ≤ msgSize m) (hfits : msgSize m < 2 ^ 32)
    (rest : Bytes) : decode M (record m ++ rest) = .error (.corruptedSize (msgSize m)) := by
  cases hdata : WalCodec.marshal m with
  | none =>
    rw [msgSize, hdata] at hsize
    exact absurd hsize (by decide)
  | some data =>
    have hlen : msgSize m = data.length := by
      rw [msgSize, hdata]
      rfl
    rw [hlen] at hsize hfits ⊢
    rw [record, hdata]
    show decode M (frame M data ++ rest) = _
    rw [frame, List.append_assoc, decode_length, Nat.mod_eq_of_lt hfits, if_pos hsize]

end codec

/-! ## Codecs for concrete logs -/

/-- Messages that are only a size, encoded as so many zeros. -/
@[reducible] def blankCodec : WalCodec Nat where
  height _ := 0
  isEndHeight _ := false
  marshal n := some (List.replicate n 0)
  unmarshal data := some data.length
  crc32 data := BitVec.ofNat 32 data.length
  unmarshal_marshal := fun h => by
    rw [← Option.some.inj h, List.length_replicate]

/-- Messages with a height, which may end with them. -/
structure Mark where
  height : Byte
  ends : Bool
deriving DecidableEq

/-- Two bytes for a message. -/
@[reducible] def markCodec : WalCodec Mark where
  height m := m.height.val
  isEndHeight m := m.ends
  marshal m := some [m.height, if m.ends then 1 else 0]
  unmarshal data :=
    match data with
    | [height, ends] => some ⟨height, ends == 1⟩
    | _ => none
  crc32 data := BitVec.ofNat 32 (data.length + 7)
  unmarshal_marshal := fun {m data} h => by
    cases h
    cases m with
    | mk height ends => cases ends <;> rfl

end Leaderberry.Wal
