import Leaderberry.Lib.FieldLoop
import Leaderberry.Types.SignBytes

/-!
# The generated messages (`types/generated`)

`EncodeTo` and `DecodeFrom` of everything that a proposal consists of, field by field as the
generator writes them. `DecodeFrom` reads into the message it is called on: it looks at the
field number only, sets the field or reads into it, and skips what it does not know.

- `Cramberry`: the reader, beside the writer of `Types.SignBytes`; it reads what the writer
  writes.
- `Proposal.restores` and its parts: a message that is decoded into an empty one is the
  message that was encoded, whatever follows it. An enumeration is kept as its number, so the
  vote types must be the ones the numbers have (`Vote.Canonical`).
- `Proposal.canonical_decodeFrom`: what is decoded has such vote types.
- `proposal_ne_vote`: no encoded proposal is an encoded vote, since their first tags differ.
-/

namespace Leaderberry

open FieldLoop PrefixCode

/-! ## The reader -/

/-- A Cramberry writer with its reader. -/
class Cramberry extends Wire where
  /-- `WriteUint64`. -/
  uint64 : Nat → Bytes
  /-- `WriteUvarint`, for the length of a repeated field. -/
  uvarint : Nat → Bytes
  /-- `ReadCompactTag`; no tag is the end. -/
  readCompactTag : Reader Byte (Option Tag)
  readInt32 : Reader Byte Int
  readInt64 : Reader Byte Int
  readUint16 : Reader Byte Nat
  readUint64 : Reader Byte Nat
  readUvarint : Reader Byte Nat
  /-- `ReadBytes` and `ReadString`. -/
  readBytes : Reader Byte Bytes
  /-- `SkipValueV2`. -/
  skipValue : WireType → Reader Byte Unit
  mark_restores : Restores (fun _ => True) mark readCompactTag
  int32_restores : Restores (fun _ => True) int32 readInt32
  int64_restores : Restores (fun _ => True) int64 readInt64
  uint16_restores : Restores (fun _ => True) uint16 readUint16
  uint64_restores : Restores (fun _ => True) uint64 readUint64
  uvarint_restores : Restores (fun _ => True) uvarint readUvarint
  bytes_restores : Restores (fun _ => True) writeBytes readBytes

variable [Cramberry]

/-- The tag of a field; numbers begin at 1. -/
def Tag.of (field : Nat) (wireType : WireType) : Tag :=
  if pos : 0 < field then { field, wireType, pos } else { field := 1, wireType, pos := Nat.one_pos }

/-- The loop of a `DecodeFrom`. -/
def decodeWith {M : Type} (field : Tag → M → Reader Byte M) (m : M) : Reader Byte M := fun s =>
  readFields Cramberry.readCompactTag field (s.length + 1) m s

/-- The default case of the switch. -/
def skipField {M : Type} (tag : Tag) (m : M) : Reader Byte M :=
  assign (fun _ => m) (Cramberry.skipValue tag.wireType)

/-- `EncodeTo` of a repeated field. -/
def encodeList {α : Type} (tag : Tag) (encode : α → Bytes) (l : List α) : Bytes :=
  if 0 < l.length then writeCompactTag tag ++ (Cramberry.uvarint l.length ++ l.flatMap encode)
  else []

/-- A repeated field: its length, then its elements. -/
def decodeList {α : Type} (decode : Reader Byte α) : Reader Byte (List α) := fun s =>
  match Cramberry.readUvarint s with
  | none => none
  | some (n, rest) => readList decode n rest

/-- `EncodeTo` of a field that may be nil. -/
def encodeOption {α : Type} (tag : Tag) (encode : α → Bytes) : Option α → Bytes
  | some a => writeCompactTag tag ++ encode a
  | none => []

/-! ### What the loops restore -/

section

variable {α : Type} {tag : Tag}

theorem decodeList_restores {valid : α → Prop} {encode : α → Bytes} {decode : Reader Byte α}
    (h : Restores valid encode decode) :
    Restores (fun l => ∀ a ∈ l, valid a)
      (fun l => Cramberry.uvarint l.length ++ l.flatMap encode) (decodeList decode) := by
  intro l hl rest
  rw [decodeList, List.append_assoc, Cramberry.uvarint_restores _ trivial]
  exact readList_flatMap h l hl rest

theorem writeCompactTag_ne_nil (tag : Tag) : Wire.mark (some tag) ≠ [] :=
  Wire.mark_code.ne_nil (Option.some_ne_none tag)

variable {M : Type} {field : Tag → M → Reader Byte M} {m m₁ m' : M} {s rest : Bytes}

/-- The fields of an encoded message, up to the end marker. -/
abbrev Decodes (field : Tag → M → Reader Byte M) (m : M) (s : Bytes) (m' : M) (rest : Bytes) :
    Prop :=
  Fields Cramberry.readCompactTag field m s m' rest

theorem decodeWith_eq (h : Decodes field m s m' rest) :
    decodeWith field m s = some (m', rest) :=
  h.readFields _ (Nat.lt_succ_self _)

theorem decodes_end : Decodes field m (writeEndMarker ++ rest) m rest :=
  fields_done Cramberry.mark_restores

/-- A field that is there, set to what is read for it. -/
theorem decodes_field {value : Bytes} {read : Reader Byte α} {a : α} (set : M → α → M)
    (hfield : field tag m = assign (set m) read) (hread : read (value ++ s) = some (a, s))
    (h : Decodes field (set m a) s m' rest) :
    Decodes field m (writeCompactTag tag ++ (value ++ s)) m' rest :=
  fields_cons Cramberry.mark_restores (writeCompactTag_ne_nil tag)
    (hfield ▸ assign_eq hread (set m)) h

/-- A field that is left out if it has its zero value. -/
theorem decodes_optional {c : Prop} [Decidable c] {value : Bytes} {read : Reader Byte α}
    {a zero : α} (set : M → α → M) (hfield : field tag m = assign (set m) read)
    (hread : read (value ++ s) = some (a, s)) (hc : ¬ c → a = zero) (hzero : set m zero = m)
    (h : Decodes field (set m a) s m' rest) :
    Decodes field m ((if c then writeCompactTag tag ++ value else []) ++ s) m' rest :=
  fields_optional Cramberry.mark_restores (writeCompactTag_ne_nil tag)
    (hfield ▸ assign_eq hread (set m)) (fun h => hc h ▸ hzero) h

/-- A field that is left out if it is nil. -/
theorem decodes_option {encode : α → Bytes} {read : Reader Byte α} {valid : α → Prop} {o : Option α}
    (set : M → Option α → M) (hfield : field tag m = assign (fun a => set m (some a)) read)
    (hread : Restores valid encode read) (hvalid : ∀ a ∈ o, valid a) (hnil : set m none = m)
    (h : Decodes field (set m o) s m' rest) :
    Decodes field m (encodeOption tag encode o ++ s) m' rest := by
  cases o with
  | none =>
    rw [hnil] at h
    exact h
  | some a =>
    rw [encodeOption, List.append_assoc]
    exact decodes_field (fun m a => set m (some a)) hfield (hread a (hvalid a rfl) s) h

/-- A field that is left out if it is an empty list. -/
theorem decodes_list {encode : α → Bytes} {decode : Reader Byte α} {valid : α → Prop} {l : List α}
    (set : M → List α → M) (hfield : field tag m = assign (set m) (decodeList decode))
    (hread : Restores valid encode decode) (hvalid : ∀ a ∈ l, valid a) (hnil : set m [] = m)
    (h : Decodes field (set m l) s m' rest) :
    Decodes field m (encodeList tag encode l ++ s) m' rest := by
  exact decodes_optional set hfield (decodeList_restores hread l hvalid s)
    (fun hempty => List.eq_nil_of_length_eq_zero (Nat.eq_zero_of_not_pos hempty)) hnil h

end

/-! ## Hashes, signatures and names -/

/-- The switch for a message with one field of bytes. -/
def readDataField {M : Type} (set : Bytes → M) (tag : Tag) (m : M) : Reader Byte M :=
  match tag.field with
  | 1 => assign set Cramberry.readBytes
  | _ => skipField tag m

theorem decodeData_eq {M : Type} (set : Bytes → M) (data rest : Bytes) :
    decodeWith (readDataField set) (set []) (encodeData data ++ rest) =
      some (set data, rest) := by
  refine decodeWith_eq ?_
  rw [encodeData, List.append_assoc]
  exact decodes_optional (fun _ => set) rfl (Cramberry.bytes_restores data trivial _)
    (fun hempty => List.eq_nil_of_length_eq_zero (Nat.eq_zero_of_not_pos hempty)) rfl decodes_end

def Hash.decodeFrom : Hash → Reader Byte Hash := decodeWith (readDataField Hash.mk)

def Signature.decodeFrom : Signature → Reader Byte Signature :=
  decodeWith (readDataField Signature.mk)

def AccountName.decodeFrom : AccountName → Reader Byte AccountName :=
  decodeWith (readDataField fun name => ⟨some name⟩)

theorem Hash.restores : Restores (fun _ => True) Hash.encodeTo (Hash.decodeFrom ⟨[]⟩) :=
  fun h _ rest => decodeData_eq Hash.mk h.data rest

theorem Signature.restores :
    Restores (fun _ => True) Signature.encodeTo (Signature.decodeFrom ⟨[]⟩) :=
  fun sig _ rest => decodeData_eq Signature.mk sig.data rest

theorem AccountName.restores :
    Restores (fun _ => True) AccountName.encodeTo (AccountName.decodeFrom ⟨none⟩) := by
  rintro ⟨name⟩ _ rest
  refine decodeWith_eq ?_
  cases name with
  | none => exact decodes_end
  | some name =>
    rw [AccountName.encodeTo, List.append_assoc, List.append_assoc]
    exact decodes_field (fun _ name => ⟨some name⟩) rfl (Cramberry.bytes_restores name trivial _)
      decodes_end

/-- A field that is a pointer to a hash. -/
def readHash {M : Type} (set : Option Hash → M) : Reader Byte M :=
  assign (fun h => set (some h)) (Hash.decodeFrom ⟨[]⟩)

/-! ## Votes and commits -/

namespace Vote

/-- The switch of `DecodeFrom`. -/
def readField (tag : Tag) (v : Vote) : Reader Byte Vote :=
  match tag.field with
  | 1 => assign (fun code => { v with type := .ofCode code }) Cramberry.readInt32
  | 2 => assign (fun height => { v with height }) Cramberry.readInt64
  | 3 => assign (fun round => { v with round }) Cramberry.readInt32
  | 4 => readHash fun blockHash => { v with blockHash }
  | 5 => assign (fun timestamp => { v with timestamp }) Cramberry.readInt64
  | 6 => assign (fun validator => { v with validator }) v.validator.decodeFrom
  | 7 => assign (fun validatorIndex => { v with validatorIndex }) Cramberry.readUint16
  | 8 => assign (fun signature => { v with signature }) v.signature.decodeFrom
  | _ => skipField tag v

def decodeFrom : Vote → Reader Byte Vote := decodeWith readField

/-- The type is the one that its number has. -/
def Canonical (v : Vote) : Prop := VoteType.ofCode v.type.code = v.type

/-- `EncodeTo` with the block hash as the other optional fields. -/
theorem encodeTo_option (v : Vote) : v.encodeTo =
    writeCompactTag ⟨1, .bytes, by decide⟩ ++ v.type.encodeTo ++
    (if v.height ≠ 0 then writeCompactTag ⟨2, .svarint, by decide⟩ ++ Wire.int64 v.height
      else []) ++
    (if v.round ≠ 0 then writeCompactTag ⟨3, .svarint, by decide⟩ ++ Wire.int32 v.round
      else []) ++
    encodeOption ⟨4, .bytes, by decide⟩ Hash.encodeTo v.blockHash ++
    (if v.timestamp ≠ 0 then
      writeCompactTag ⟨5, .svarint, by decide⟩ ++ Wire.int64 v.timestamp else []) ++
    writeCompactTag ⟨6, .bytes, by decide⟩ ++ v.validator.encodeTo ++
    (if v.validatorIndex ≠ 0 then
      writeCompactTag ⟨7, .varint, by decide⟩ ++ Wire.uint16 v.validatorIndex else []) ++
    writeCompactTag ⟨8, .bytes, by decide⟩ ++ v.signature.encodeTo ++ writeEndMarker := by
  rw [encodeTo]
  cases v.blockHash <;> rfl

theorem restores : Restores Canonical encodeTo (decodeFrom zero) := by
  intro v hv rest
  refine decodeWith_eq ?_
  rw [encodeTo_option]
  simp only [List.append_assoc]
  refine decodes_field (fun m code => { m with type := .ofCode code }) rfl
    (Cramberry.int32_restores _ trivial _) ?_
  refine decodes_optional (fun m height => { m with height }) rfl
    (Cramberry.int64_restores _ trivial _) not_not.mp rfl ?_
  refine decodes_optional (fun m round => { m with round }) rfl
    (Cramberry.int32_restores _ trivial _) not_not.mp rfl ?_
  refine decodes_option (fun m blockHash => { m with blockHash }) rfl Hash.restores
    (fun _ _ => trivial) rfl ?_
  refine decodes_optional (fun m timestamp => { m with timestamp }) rfl
    (Cramberry.int64_restores _ trivial _) not_not.mp rfl ?_
  refine decodes_field (fun m validator => { m with validator }) rfl
    (AccountName.restores _ trivial _) ?_
  refine decodes_optional (fun m validatorIndex => { m with validatorIndex }) rfl
    (Cramberry.uint16_restores _ trivial _) not_not.mp rfl ?_
  refine decodes_field (fun m signature => { m with signature }) rfl
    (Signature.restores _ trivial _) ?_
  dsimp only
  rw [hv]
  exact decodes_end

/-- A type that is read is one that its number has. -/
theorem canonical_readField {tag : Tag} {v v' : Vote} {s rest : Bytes} (hv : v.Canonical)
    (h : readField tag v s = some (v', rest)) : v'.Canonical := by
  generalize hread : readField tag v = read at h
  unfold readField at hread
  split at hread <;> subst hread
  · obtain ⟨code, -, rfl⟩ := of_assign h
    show VoteType.ofCode (VoteType.ofCode code).code = VoteType.ofCode code
    rw [VoteType.code_ofCode]
  -- no other field touches the type
  all_goals
    obtain ⟨_, -, rfl⟩ := of_assign h
    exact hv

omit [Cramberry] in
theorem zero_canonical : zero.Canonical := rfl

theorem canonical_decodeFrom {v v' : Vote} {s rest : Bytes} (hv : v.Canonical)
    (h : v.decodeFrom s = some (v', rest)) : v'.Canonical :=
  readFields_invariant (fun _ _ _ _ _ hm hfield => canonical_readField hm hfield) _ hv h

end Vote

namespace CommitSig

def zero : CommitSig := ⟨0, ⟨[]⟩, 0, none⟩

/-- `CommitSig.EncodeTo`. -/
def encodeTo (sig : CommitSig) : Bytes :=
  (if sig.validatorIndex ≠ 0 then
    writeCompactTag (.of 1 .varint) ++ Wire.uint16 sig.validatorIndex else []) ++
  writeCompactTag (.of 2 .bytes) ++ sig.signature.encodeTo ++
  (if sig.timestamp ≠ 0 then
    writeCompactTag (.of 3 .svarint) ++ Wire.int64 sig.timestamp else []) ++
  encodeOption (.of 4 .bytes) Hash.encodeTo sig.blockHash ++
  writeEndMarker

def readField (tag : Tag) (sig : CommitSig) : Reader Byte CommitSig :=
  match tag.field with
  | 1 => assign (fun validatorIndex => { sig with validatorIndex }) Cramberry.readUint16
  | 2 => assign (fun signature => { sig with signature }) sig.signature.decodeFrom
  | 3 => assign (fun timestamp => { sig with timestamp }) Cramberry.readInt64
  | 4 => readHash fun blockHash => { sig with blockHash }
  | _ => skipField tag sig

def decodeFrom : CommitSig → Reader Byte CommitSig := decodeWith readField

theorem restores : Restores (fun _ => True) encodeTo (decodeFrom zero) := by
  intro sig _ rest
  refine decodeWith_eq ?_
  rw [encodeTo]
  simp only [List.append_assoc]
  refine decodes_optional (fun m validatorIndex => { m with validatorIndex }) rfl
    (Cramberry.uint16_restores _ trivial _) not_not.mp rfl ?_
  refine decodes_field (fun m signature => { m with signature }) rfl
    (Signature.restores _ trivial _) ?_
  refine decodes_optional (fun m timestamp => { m with timestamp }) rfl
    (Cramberry.int64_restores _ trivial _) not_not.mp rfl ?_
  refine decodes_option (fun m blockHash => { m with blockHash }) rfl Hash.restores
    (fun _ _ => trivial) rfl ?_
  exact decodes_end

end CommitSig

namespace Commit

def zero : Commit := ⟨0, 0, ⟨[]⟩, []⟩

/-- `Commit.EncodeTo`. -/
def encodeTo (c : Commit) : Bytes :=
  (if c.height ≠ 0 then writeCompactTag (.of 1 .svarint) ++ Wire.int64 c.height
    else []) ++
  (if c.round ≠ 0 then writeCompactTag (.of 2 .svarint) ++ Wire.int32 c.round
    else []) ++
  writeCompactTag (.of 3 .bytes) ++ c.blockHash.encodeTo ++
  encodeList (.of 4 .bytes) CommitSig.encodeTo c.signatures ++
  writeEndMarker

def readField (tag : Tag) (c : Commit) : Reader Byte Commit :=
  match tag.field with
  | 1 => assign (fun height => { c with height }) Cramberry.readInt64
  | 2 => assign (fun round => { c with round }) Cramberry.readInt32
  | 3 => assign (fun blockHash => { c with blockHash }) c.blockHash.decodeFrom
  | 4 => assign (fun signatures => { c with signatures })
      (decodeList (CommitSig.decodeFrom .zero))
  | _ => skipField tag c

def decodeFrom : Commit → Reader Byte Commit := decodeWith readField

theorem restores : Restores (fun _ => True) encodeTo (decodeFrom zero) := by
  intro c _ rest
  refine decodeWith_eq ?_
  rw [encodeTo]
  simp only [List.append_assoc]
  refine decodes_optional (fun m height => { m with height }) rfl
    (Cramberry.int64_restores _ trivial _) not_not.mp rfl ?_
  refine decodes_optional (fun m round => { m with round }) rfl
    (Cramberry.int32_restores _ trivial _) not_not.mp rfl ?_
  refine decodes_field (fun m blockHash => { m with blockHash }) rfl
    (Hash.restores _ trivial _) ?_
  refine decodes_list (fun m signatures => { m with signatures }) rfl CommitSig.restores
    (fun _ _ => trivial) rfl ?_
  exact decodes_end

end Commit

/-! ## Blocks and proposals -/

namespace BatchCertRef

def zero : BatchCertRef := ⟨⟨[]⟩, 0, ⟨none⟩⟩

/-- `BatchCertRef.EncodeTo`. -/
def encodeTo (ref : BatchCertRef) : Bytes :=
  writeCompactTag (.of 1 .bytes) ++ ref.certificateDigest.encodeTo ++
  (if ref.round ≠ 0 then writeCompactTag (.of 2 .varint) ++ Cramberry.uint64 ref.round
    else []) ++
  writeCompactTag (.of 3 .bytes) ++ ref.validator.encodeTo ++
  writeEndMarker

def readField (tag : Tag) (ref : BatchCertRef) : Reader Byte BatchCertRef :=
  match tag.field with
  | 1 => assign (fun certificateDigest => { ref with certificateDigest })
      ref.certificateDigest.decodeFrom
  | 2 => assign (fun round => { ref with round }) Cramberry.readUint64
  | 3 => assign (fun validator => { ref with validator }) ref.validator.decodeFrom
  | _ => skipField tag ref

def decodeFrom : BatchCertRef → Reader Byte BatchCertRef := decodeWith readField

theorem restores : Restores (fun _ => True) encodeTo (decodeFrom zero) := by
  intro ref _ rest
  refine decodeWith_eq ?_
  rw [encodeTo]
  simp only [List.append_assoc]
  refine decodes_field (fun m certificateDigest => { m with certificateDigest }) rfl
    (Hash.restores _ trivial _) ?_
  refine decodes_optional (fun m round => { m with round }) rfl
    (Cramberry.uint64_restores _ trivial _) not_not.mp rfl ?_
  refine decodes_field (fun m validator => { m with validator }) rfl
    (AccountName.restores _ trivial _) ?_
  exact decodes_end

end BatchCertRef

namespace BlockHeader

def zero : BlockHeader where
  chainId := []
  height := 0
  time := 0
  lastBlockHash := none
  lastCommitHash := none
  validatorsHash := none
  appHash := none
  consensusHash := none
  dagRound := 0
  batchCertRefs := []
  proposer := ⟨none⟩

/-- `BlockHeader.EncodeTo`. -/
def encodeTo (h : BlockHeader) : Bytes :=
  (if h.chainId ≠ [] then writeCompactTag (.of 1 .bytes) ++ writeBytes h.chainId
    else []) ++
  (if h.height ≠ 0 then writeCompactTag (.of 2 .svarint) ++ Wire.int64 h.height
    else []) ++
  (if h.time ≠ 0 then writeCompactTag (.of 3 .svarint) ++ Wire.int64 h.time else []) ++
  encodeOption (.of 4 .bytes) Hash.encodeTo h.lastBlockHash ++
  encodeOption (.of 5 .bytes) Hash.encodeTo h.lastCommitHash ++
  encodeOption (.of 6 .bytes) Hash.encodeTo h.validatorsHash ++
  encodeOption (.of 7 .bytes) Hash.encodeTo h.appHash ++
  encodeOption (.of 8 .bytes) Hash.encodeTo h.consensusHash ++
  (if h.dagRound ≠ 0 then
    writeCompactTag (.of 9 .varint) ++ Cramberry.uint64 h.dagRound else []) ++
  encodeList (.of 10 .bytes) BatchCertRef.encodeTo h.batchCertRefs ++
  writeCompactTag (.of 11 .bytes) ++ h.proposer.encodeTo ++
  writeEndMarker

def readField (tag : Tag) (h : BlockHeader) : Reader Byte BlockHeader :=
  match tag.field with
  | 1 => assign (fun chainId => { h with chainId }) Cramberry.readBytes
  | 2 => assign (fun height => { h with height }) Cramberry.readInt64
  | 3 => assign (fun time => { h with time }) Cramberry.readInt64
  | 4 => readHash fun lastBlockHash => { h with lastBlockHash }
  | 5 => readHash fun lastCommitHash => { h with lastCommitHash }
  | 6 => readHash fun validatorsHash => { h with validatorsHash }
  | 7 => readHash fun appHash => { h with appHash }
  | 8 => readHash fun consensusHash => { h with consensusHash }
  | 9 => assign (fun dagRound => { h with dagRound }) Cramberry.readUint64
  | 10 => assign (fun batchCertRefs => { h with batchCertRefs })
      (decodeList (BatchCertRef.decodeFrom .zero))
  | 11 => assign (fun proposer => { h with proposer }) h.proposer.decodeFrom
  | _ => skipField tag h

def decodeFrom : BlockHeader → Reader Byte BlockHeader := decodeWith readField

theorem restores : Restores (fun _ => True) encodeTo (decodeFrom zero) := by
  intro h _ rest
  refine decodeWith_eq ?_
  rw [encodeTo]
  simp only [List.append_assoc]
  refine decodes_optional (fun m chainId => { m with chainId }) rfl
    (Cramberry.bytes_restores _ trivial _) not_not.mp rfl ?_
  refine decodes_optional (fun m height => { m with height }) rfl
    (Cramberry.int64_restores _ trivial _) not_not.mp rfl ?_
  refine decodes_optional (fun m time => { m with time }) rfl
    (Cramberry.int64_restores _ trivial _) not_not.mp rfl ?_
  -- the message so far, with its fields written out
  dsimp only [zero]
  refine decodes_option (fun m lastBlockHash => { m with lastBlockHash }) rfl Hash.restores
    (fun _ _ => trivial) rfl ?_
  refine decodes_option (fun m lastCommitHash => { m with lastCommitHash }) rfl Hash.restores
    (fun _ _ => trivial) rfl ?_
  refine decodes_option (fun m validatorsHash => { m with validatorsHash }) rfl Hash.restores
    (fun _ _ => trivial) rfl ?_
  dsimp only
  refine decodes_option (fun m appHash => { m with appHash }) rfl Hash.restores
    (fun _ _ => trivial) rfl ?_
  refine decodes_option (fun m consensusHash => { m with consensusHash }) rfl Hash.restores
    (fun _ _ => trivial) rfl ?_
  dsimp only
  refine decodes_optional (fun m dagRound => { m with dagRound }) rfl
    (Cramberry.uint64_restores _ trivial _) not_not.mp rfl ?_
  refine decodes_list (fun m batchCertRefs => { m with batchCertRefs }) rfl
    BatchCertRef.restores (fun _ _ => trivial) rfl ?_
  refine decodes_field (fun m proposer => { m with proposer }) rfl
    (AccountName.restores _ trivial _) ?_
  exact decodes_end

end BlockHeader

namespace BlockData

/-- `BlockData.EncodeTo`. -/
def encodeTo (d : BlockData) : Bytes :=
  encodeList (.of 1 .bytes) Hash.encodeTo d.batchDigests ++ writeEndMarker

def readField (tag : Tag) (d : BlockData) : Reader Byte BlockData :=
  match tag.field with
  | 1 => assign (fun batchDigests => { d with batchDigests })
      (decodeList (Hash.decodeFrom ⟨[]⟩))
  | _ => skipField tag d

def decodeFrom : BlockData → Reader Byte BlockData := decodeWith readField

theorem restores : Restores (fun _ => True) encodeTo (decodeFrom ⟨[]⟩) := by
  intro d _ rest
  refine decodeWith_eq ?_
  rw [encodeTo, List.append_assoc]
  exact decodes_list (fun m batchDigests => { m with batchDigests }) rfl Hash.restores
    (fun _ _ => trivial) rfl decodes_end

end BlockData

namespace Block

def zero : Block := ⟨.zero, ⟨[]⟩, [], none⟩

/-- `Block.EncodeTo`. -/
def encodeTo (b : Block) : Bytes :=
  writeCompactTag (.of 1 .bytes) ++ b.header.encodeTo ++
  writeCompactTag (.of 2 .bytes) ++ b.data.encodeTo ++
  encodeList (.of 3 .bytes) writeBytes b.evidence ++
  encodeOption (.of 4 .bytes) Commit.encodeTo b.lastCommit ++
  writeEndMarker

def readField (tag : Tag) (b : Block) : Reader Byte Block :=
  match tag.field with
  | 1 => assign (fun header => { b with header }) b.header.decodeFrom
  | 2 => assign (fun data => { b with data }) b.data.decodeFrom
  | 3 => assign (fun evidence => { b with evidence }) (decodeList Cramberry.readBytes)
  | 4 => assign (fun c => { b with lastCommit := some c }) (Commit.decodeFrom .zero)
  | _ => skipField tag b

def decodeFrom : Block → Reader Byte Block := decodeWith readField

theorem restores : Restores (fun _ => True) encodeTo (decodeFrom zero) := by
  intro b _ rest
  refine decodeWith_eq ?_
  rw [encodeTo]
  simp only [List.append_assoc]
  refine decodes_field (fun m header => { m with header }) rfl
    (BlockHeader.restores _ trivial _) ?_
  refine decodes_field (fun m data => { m with data }) rfl
    (BlockData.restores _ trivial _) ?_
  refine decodes_list (fun m evidence => { m with evidence }) rfl Cramberry.bytes_restores
    (fun _ _ => trivial) rfl ?_
  refine decodes_option (fun m lastCommit => { m with lastCommit }) rfl Commit.restores
    (fun _ _ => trivial) rfl ?_
  exact decodes_end

end Block

namespace Proposal

def zero : Proposal := ⟨0, 0, 0, .zero, 0, [], ⟨none⟩, ⟨[]⟩⟩

/-- `Proposal.EncodeTo`. -/
def encodeTo (p : Proposal) : Bytes :=
  (if p.height ≠ 0 then writeCompactTag (.of 1 .svarint) ++ Wire.int64 p.height
    else []) ++
  (if p.round ≠ 0 then writeCompactTag (.of 2 .svarint) ++ Wire.int32 p.round
    else []) ++
  (if p.timestamp ≠ 0 then
    writeCompactTag (.of 3 .svarint) ++ Wire.int64 p.timestamp else []) ++
  writeCompactTag (.of 4 .bytes) ++ p.block.encodeTo ++
  (if p.polRound ≠ 0 then writeCompactTag (.of 5 .svarint) ++ Wire.int32 p.polRound
    else []) ++
  encodeList (.of 6 .bytes) Vote.encodeTo p.polVotes ++
  writeCompactTag (.of 7 .bytes) ++ p.proposer.encodeTo ++
  writeCompactTag (.of 8 .bytes) ++ p.signature.encodeTo ++
  writeEndMarker

def readField (tag : Tag) (p : Proposal) : Reader Byte Proposal :=
  match tag.field with
  | 1 => assign (fun height => { p with height }) Cramberry.readInt64
  | 2 => assign (fun round => { p with round }) Cramberry.readInt32
  | 3 => assign (fun timestamp => { p with timestamp }) Cramberry.readInt64
  | 4 => assign (fun block => { p with block }) p.block.decodeFrom
  | 5 => assign (fun polRound => { p with polRound }) Cramberry.readInt32
  | 6 => assign (fun polVotes => { p with polVotes }) (decodeList (Vote.decodeFrom .zero))
  | 7 => assign (fun proposer => { p with proposer }) p.proposer.decodeFrom
  | 8 => assign (fun signature => { p with signature }) p.signature.decodeFrom
  | _ => skipField tag p

def decodeFrom : Proposal → Reader Byte Proposal := decodeWith readField

def Canonical (p : Proposal) : Prop := ∀ v ∈ p.polVotes, v.Canonical

theorem restores : Restores Canonical encodeTo (decodeFrom zero) := by
  intro p hp rest
  refine decodeWith_eq ?_
  rw [encodeTo]
  simp only [List.append_assoc]
  refine decodes_optional (fun m height => { m with height }) rfl
    (Cramberry.int64_restores _ trivial _) not_not.mp rfl ?_
  refine decodes_optional (fun m round => { m with round }) rfl
    (Cramberry.int32_restores _ trivial _) not_not.mp rfl ?_
  refine decodes_optional (fun m timestamp => { m with timestamp }) rfl
    (Cramberry.int64_restores _ trivial _) not_not.mp rfl ?_
  refine decodes_field (fun m block => { m with block }) rfl
    (Block.restores _ trivial _) ?_
  refine decodes_optional (fun m polRound => { m with polRound }) rfl
    (Cramberry.int32_restores _ trivial _) not_not.mp rfl ?_
  refine decodes_list (fun m polVotes => { m with polVotes }) rfl Vote.restores hp rfl ?_
  refine decodes_field (fun m proposer => { m with proposer }) rfl
    (AccountName.restores _ trivial _) ?_
  refine decodes_field (fun m signature => { m with signature }) rfl
    (Signature.restores _ trivial _) ?_
  exact decodes_end

theorem canonical_readField {tag : Tag} {p p' : Proposal} {s rest : Bytes} (hp : p.Canonical)
    (h : readField tag p s = some (p', rest)) : p'.Canonical := by
  generalize hread : readField tag p = read at h
  unfold readField at hread
  split at hread <;> subst hread
  case h_6 =>
    obtain ⟨votes, hvotes, rfl⟩ := of_assign h
    unfold decodeList at hvotes
    split at hvotes
    · cases hvotes
    · exact of_mem_readList
        (fun _ _ _ hread => Vote.canonical_decodeFrom Vote.zero_canonical hread) _ hvotes
  -- no other field touches the votes
  all_goals
    obtain ⟨_, -, rfl⟩ := of_assign h
    exact hp

theorem canonical_decodeFrom {p p' : Proposal} {s rest : Bytes} (hp : p.Canonical)
    (h : p.decodeFrom s = some (p', rest)) : p'.Canonical :=
  readFields_invariant (fun _ _ _ _ _ hm hfield => canonical_readField hm hfield) _ hp h

end Proposal

/-! ## Whole messages -/

/-- `UnmarshalCramberry` into an empty message; what is left over is ignored. -/
def unmarshal {M : Type} (decode : Reader Byte M) (data : Bytes) : Option M :=
  (decode data).map Prod.fst

omit [Cramberry] in
theorem unmarshal_of_restores {M : Type} {valid : M → Prop} {encode : M → Bytes}
    {decode : Reader Byte M} (h : Restores valid encode decode) {m : M} (hm : valid m)
    (rest : Bytes) : unmarshal decode (encode m ++ rest) = some m := by
  rw [unmarshal, h m hm rest, Option.map_some]

/-! ## What is no vote -/

/-- An encoded proposal begins with the tag of one of its first four fields. -/
theorem Proposal.encodeTo_tag (p : Proposal) :
    ∃ tag rest, p.encodeTo = writeCompactTag tag ++ rest ∧ tag ≠ ⟨1, .bytes, by decide⟩ := by
  rw [Proposal.encodeTo]
  simp only [List.append_assoc]
  by_cases hheight : p.height ≠ 0
  · rw [if_pos hheight, List.append_assoc]
    exact ⟨_, _, rfl, by decide⟩
  · rw [if_neg hheight, List.nil_append]
    by_cases hround : p.round ≠ 0
    · rw [if_pos hround, List.append_assoc]
      exact ⟨_, _, rfl, by decide⟩
    · rw [if_neg hround, List.nil_append]
      by_cases htimestamp : p.timestamp ≠ 0
      · rw [if_pos htimestamp, List.append_assoc]
        exact ⟨_, _, rfl, by decide⟩
      · rw [if_neg htimestamp, List.nil_append]
        exact ⟨_, _, rfl, by decide⟩

/-- No encoded proposal begins with an encoded vote, or the other way round: a vote begins
with its type. -/
theorem proposal_ne_vote (p : Proposal) (v : Vote) (s t : Bytes) :
    p.encodeTo ++ s ≠ v.encodeTo ++ t := by
  obtain ⟨tag, rest, hp, htag⟩ := p.encodeTo_tag
  intro heq
  rw [hp, Vote.encodeTo_option] at heq
  simp only [List.append_assoc] at heq
  exact htag (Option.some.inj (Wire.mark_code heq).1)

/-! ## A format -/

section format

omit [Cramberry]

/-- A string behind its length. -/
def readPrefixed : Reader Byte Bytes := fun s =>
  match readVarint s with
  | none => none
  | some (n, rest) => if n ≤ rest.length then some (rest.take n, rest.drop n) else none

theorem readPrefixed_restores :
    Restores (fun _ => True) (lengthPrefixed varint) readPrefixed := by
  intro data _ rest
  rw [readPrefixed, lengthPrefixed, List.append_assoc, varint_restores _ trivial]
  simp

/-- `n` bytes are skipped. -/
def skipBytes (n : Nat) : Reader Byte Unit := fun s =>
  if n ≤ s.length then some ((), s.drop n) else none

def skipWith : WireType → Reader Byte Unit
  | .varint | .svarint => assign (fun _ => ()) readVarint
  | .bytes => assign (fun _ => ()) readPrefixed
  | .fixed64 => skipBytes 8
  | .fixed32 => skipBytes 4
  | .unassigned _ => fun _ => none

/-- Cramberry's tags, and numbers in base 128. -/
@[reducible] def varintCramberry : Cramberry where
  toWire := varintWire
  uint64 := varint
  uvarint := varint
  readCompactTag := readTag
  readInt32 := assign unzigzag readVarint
  readInt64 := assign unzigzag readVarint
  readUint16 := readVarint
  readUint64 := readVarint
  readUvarint := readVarint
  readBytes := readPrefixed
  skipValue := skipWith
  mark_restores := readTag_restores
  int32_restores := zigzag_restores
  int64_restores := zigzag_restores
  uint16_restores := varint_restores
  uint64_restores := varint_restores
  uvarint_restores := varint_restores
  bytes_restores := readPrefixed_restores

end format

end Leaderberry
