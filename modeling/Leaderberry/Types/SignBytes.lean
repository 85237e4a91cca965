import Leaderberry.Lib.FieldLoop
import Leaderberry.Types.Basic

/-!
# What the signature of a vote binds (`types/vote.go`, `types/generated`)

`VoteSignBytes` puts the chain ID in front of the encoded vote, to keep votes of one chain
from counting on another. The encoded vote ends by itself, so it tells every field
(`Vote.fields_of_encodeTo`). The chain ID does not: it has no length and no end, and the
vote behind it has the name of the validator in it, a string of any bytes. A name that looks
like the beginning of another vote moves the border between the two.

- `Wire`: what the generated code relies on of a Cramberry writer.
- `Vote.encodeTo` with `Vote.fields`, the fields it writes, and `Vote.ofFields`, the loop of
  `DecodeFrom` over them.
- `voteSignBytes_binds_iff`: equal sign bytes mean the same chain and the same vote exactly
  if the chain IDs are equally long. For votes with the same validator index there is always
  a longer chain ID and a name that confuse them.
-/

namespace Leaderberry

open FieldLoop PrefixCode

/-! ## The writer -/

/-- The wire types, three bits. The messages use `WireTypeV2Varint`, `WireTypeV2SVarint` and
`WireTypeV2Bytes`; a reader may meet any. -/
inductive WireType where
  | varint
  | fixed64
  | bytes
  | fixed32
  | svarint
  | unassigned (code : Fin 3)
deriving DecidableEq

/-- The tag of a field. Field number 0 is the end of a message. -/
structure Tag where
  field : Nat
  wireType : WireType
  pos : 0 < field
deriving DecidableEq

/-- A Cramberry writer. -/
class Wire where
  /-- `WriteCompactTag`, or `WriteEndMarker`. -/
  mark : Option Tag → Bytes
  /-- `WriteInt32`. -/
  int32 : Int → Bytes
  /-- `WriteInt64`. -/
  int64 : Int → Bytes
  /-- `WriteUint16`. -/
  uint16 : Nat → Bytes
  /-- What `WriteBytes` and `WriteString` put in front. -/
  length : Nat → Bytes
  mark_code : IsPrefixCode mark
  int32_code : IsPrefixCode int32
  int64_code : IsPrefixCode int64
  uint16_code : IsPrefixCode uint16
  length_code : IsPrefixCode length

/-! ## Encoding (`EncodeTo`) -/

section encoding

variable [Wire]

/-- `WriteCompactTag`. -/
def writeCompactTag (tag : Tag) : Bytes := Wire.mark (some tag)

/-- `WriteEndMarker`. -/
def writeEndMarker : Bytes := Wire.mark none

/-- `WriteBytes` and `WriteString`. -/
def writeBytes (data : Bytes) : Bytes := lengthPrefixed Wire.length data

/-- The tag of the one field of a hash, a signature or a name. -/
def dataTag : Tag := ⟨1, .bytes, by decide⟩

/-- `EncodeTo` of a message with one field of bytes. -/
def encodeData (data : Bytes) : Bytes :=
  (if 0 < data.length then writeCompactTag dataTag ++ writeBytes data else []) ++ writeEndMarker

def Hash.encodeTo (h : Hash) : Bytes := encodeData h.data

def Signature.encodeTo (s : Signature) : Bytes := encodeData s.data

def AccountName.encodeTo (a : AccountName) : Bytes :=
  (match a.name with
    | some name => writeCompactTag dataTag ++ writeBytes name
    | none => []) ++ writeEndMarker

/-- `VoteType(code)`. -/
def VoteType.ofCode (code : Int) : VoteType :=
  if code = 0 then unknown
  else if code = 1 then prevote
  else if code = 2 then precommit
  else other code

def VoteType.encodeTo (t : VoteType) : Bytes := Wire.int32 t.code

/-- `Vote.EncodeTo`. -/
def Vote.encodeTo (v : Vote) : Bytes :=
  writeCompactTag ⟨1, .bytes, by decide⟩ ++ v.type.encodeTo ++
  (if v.height ≠ 0 then writeCompactTag ⟨2, .svarint, by decide⟩ ++ Wire.int64 v.height
    else []) ++
  (if v.round ≠ 0 then writeCompactTag ⟨3, .svarint, by decide⟩ ++ Wire.int32 v.round
    else []) ++
  (match v.blockHash with
    | some hash => writeCompactTag ⟨4, .bytes, by decide⟩ ++ hash.encodeTo
    | none => []) ++
  (if v.timestamp ≠ 0 then writeCompactTag ⟨5, .svarint, by decide⟩ ++ Wire.int64 v.timestamp
    else []) ++
  writeCompactTag ⟨6, .bytes, by decide⟩ ++ v.validator.encodeTo ++
  (if v.validatorIndex ≠ 0 then
    writeCompactTag ⟨7, .varint, by decide⟩ ++ Wire.uint16 v.validatorIndex
    else []) ++
  writeCompactTag ⟨8, .bytes, by decide⟩ ++ v.signature.encodeTo ++
  writeEndMarker

end encoding

/-! ## The fields of a vote -/

/-- A field that is present, with its value. -/
inductive VoteField where
  | type (code : Int)
  | height (h : Int)
  | round (r : Int)
  | blockHash (hash : Hash)
  | timestamp (t : Int)
  | validator (name : AccountName)
  | validatorIndex (index : Nat)
  | signature (sig : Signature)

namespace VoteField

def tag : VoteField → Tag
  | type _ => ⟨1, .bytes, by decide⟩
  | height _ => ⟨2, .svarint, by decide⟩
  | round _ => ⟨3, .svarint, by decide⟩
  | blockHash _ => ⟨4, .bytes, by decide⟩
  | timestamp _ => ⟨5, .svarint, by decide⟩
  | validator _ => ⟨6, .bytes, by decide⟩
  | validatorIndex _ => ⟨7, .varint, by decide⟩
  | signature _ => ⟨8, .bytes, by decide⟩

def value [Wire] : VoteField → Bytes
  | type code => Wire.int32 code
  | height h => Wire.int64 h
  | round r => Wire.int32 r
  | blockHash hash => hash.encodeTo
  | timestamp t => Wire.int64 t
  | validator name => name.encodeTo
  | validatorIndex index => Wire.uint16 index
  | signature sig => sig.encodeTo

/-- A case of the switch in `Vote.DecodeFrom`. -/
def set (v : Vote) : VoteField → Vote
  | type code => { v with type := .ofCode code }
  | height h => { v with height := h }
  | round r => { v with round := r }
  | blockHash hash => { v with blockHash := some hash }
  | timestamp t => { v with timestamp := t }
  | validator name => { v with validator := name }
  | validatorIndex index => { v with validatorIndex := index }
  | signature sig => { v with signature := sig }

end VoteField

namespace Vote

/-- The fields that `EncodeTo` writes before the name of the validator. -/
def openingFields (v : Vote) : List VoteField :=
  [VoteField.type v.type.code] ++
  (if v.height ≠ 0 then [VoteField.height v.height] else []) ++
  (if v.round ≠ 0 then [VoteField.round v.round] else []) ++
  (v.blockHash.map VoteField.blockHash).toList ++
  (if v.timestamp ≠ 0 then [VoteField.timestamp v.timestamp] else [])

/-- Those behind it. -/
def closingFields (v : Vote) : List VoteField :=
  (if v.validatorIndex ≠ 0 then [VoteField.validatorIndex v.validatorIndex] else []) ++
  [VoteField.signature v.signature]

/-- The fields that `EncodeTo` writes, in its order. -/
def fields (v : Vote) : List VoteField :=
  v.openingFields ++ [VoteField.validator v.validator] ++ v.closingFields

/-- The zero value. -/
def zero : Vote where
  type := .unknown
  height := 0
  round := 0
  blockHash := none
  timestamp := 0
  validator := ⟨none⟩
  validatorIndex := 0
  signature := ⟨[]⟩

/-- The loop of `DecodeFrom`. -/
def ofFields (fields : List VoteField) : Vote := fields.foldl VoteField.set zero

end Vote

theorem VoteType.code_ofCode (code : Int) : (VoteType.ofCode code).code = code := by
  unfold VoteType.ofCode
  split
  · rename_i h
    exact h.symm
  split
  · rename_i h
    exact h.symm
  split
  · rename_i h
    exact h.symm
  · rfl

/-- A field that is left out has the value it would set. -/
theorem foldl_set_optional {c : Prop} [Decidable c] {v : Vote} {f : VoteField}
    (hzero : ¬ c → VoteField.set v f = v) :
    (if c then [f] else []).foldl VoteField.set v = VoteField.set v f := by
  by_cases hc : c
  · rw [if_pos hc]
    rfl
  · rw [if_neg hc, hzero hc]
    rfl

/-- `DecodeFrom` reads back what `EncodeTo` wrote. -/
theorem Vote.ofFields_fields (v : Vote) :
    Vote.ofFields v.fields = { v with type := .ofCode v.type.code } := by
  have hheight {w : Vote} (hw : w.height = 0) :
      (if v.height ≠ 0 then [VoteField.height v.height] else []).foldl VoteField.set w =
        { w with height := v.height } :=
    foldl_set_optional fun hzero => by rw [VoteField.set, not_not.mp hzero, ← hw]
  have hround {w : Vote} (hw : w.round = 0) :
      (if v.round ≠ 0 then [VoteField.round v.round] else []).foldl VoteField.set w =
        { w with round := v.round } :=
    foldl_set_optional fun hzero => by rw [VoteField.set, not_not.mp hzero, ← hw]
  have hhash {w : Vote} (hw : w.blockHash = none) :
      (v.blockHash.map VoteField.blockHash).toList.foldl VoteField.set w =
        { w with blockHash := v.blockHash } := by
    cases v.blockHash with
    | none =>
      show w = { w with blockHash := none }
      rw [← hw]
    | some hash => rfl
  have htimestamp {w : Vote} (hw : w.timestamp = 0) :
      (if v.timestamp ≠ 0 then [VoteField.timestamp v.timestamp] else []).foldl VoteField.set w =
        { w with timestamp := v.timestamp } :=
    foldl_set_optional fun hzero => by rw [VoteField.set, not_not.mp hzero, ← hw]
  have hindex {w : Vote} (hw : w.validatorIndex = 0) :
      (if v.validatorIndex ≠ 0 then [VoteField.validatorIndex v.validatorIndex]
        else []).foldl VoteField.set w = { w with validatorIndex := v.validatorIndex } :=
    foldl_set_optional fun hzero => by rw [VoteField.set, not_not.mp hzero, ← hw]
  rw [Vote.ofFields, Vote.fields, Vote.openingFields, Vote.closingFields]
  simp only [List.foldl_append, List.foldl_cons, List.foldl_nil]
  rw [hheight rfl, hround rfl, hhash rfl, htimestamp rfl, hindex rfl]
  rfl

/-! ## Reading an encoded vote -/

section decoding

variable [Wire]

/-- The one field of a hash, a signature or a name. -/
theorem isPrefixCode_dataItem :
    IsPrefixCode (item Wire.mark (fun _ : Bytes => dataTag) writeBytes) :=
  Wire.mark_code.item fun _ _ _ _ _ hst => Wire.length_code.lengthPrefixed hst

theorem isPrefixCode_encodeData : IsPrefixCode encodeData := by
  have hcode := isPrefixCode_dataItem.message.comp
    (f := fun data : Bytes => if 0 < data.length then [data] else []) ?_
  · intro a b s t hst
    refine hcode ?_
    simpa [message, item, encodeData, writeCompactTag, writeEndMarker, apply_ite] using hst
  · -- no bytes are no field
    intro a b hab
    dsimp only at hab
    split at hab <;> split at hab <;> simp_all

theorem isPrefixCode_hash : IsPrefixCode Hash.encodeTo :=
  isPrefixCode_encodeData.comp fun ⟨_⟩ ⟨_⟩ hab => congrArg Hash.mk hab

theorem isPrefixCode_signature : IsPrefixCode Signature.encodeTo :=
  isPrefixCode_encodeData.comp fun ⟨_⟩ ⟨_⟩ hab => congrArg Signature.mk hab

theorem isPrefixCode_accountName : IsPrefixCode AccountName.encodeTo := by
  have hcode := isPrefixCode_dataItem.message.comp
    (f := fun a : AccountName => a.name.toList) ?_
  · intro a b s t hst
    refine hcode ?_
    have hmessage (a : AccountName) : a.encodeTo =
        message (item Wire.mark (fun _ : Bytes => dataTag) writeBytes) a.name.toList := by
      rw [AccountName.encodeTo]
      cases a.name with
      | none => rfl
      | some name => simp [message, item, writeCompactTag, writeEndMarker]
    rwa [hmessage, hmessage] at hst
  · rintro ⟨_ | a⟩ ⟨_ | b⟩ hab <;> cases hab <;> rfl

/-- One field, or the end marker. -/
def encodeField : Option VoteField → Bytes := item Wire.mark VoteField.tag VoteField.value

theorem encodeField_some (f : VoteField) :
    encodeField (some f) = writeCompactTag f.tag ++ f.value := rfl

/-- The tag of a field tells its type. -/
theorem isPrefixCode_encodeField : IsPrefixCode encodeField := by
  refine Wire.mark_code.item fun f g s t htag hst => ?_
  cases f <;> cases g <;> cases htag
  case type => exact (Wire.int32_code hst).imp_left (congrArg VoteField.type)
  case height => exact (Wire.int64_code hst).imp_left (congrArg VoteField.height)
  case round => exact (Wire.int32_code hst).imp_left (congrArg VoteField.round)
  case blockHash => exact (isPrefixCode_hash hst).imp_left (congrArg VoteField.blockHash)
  case timestamp => exact (Wire.int64_code hst).imp_left (congrArg VoteField.timestamp)
  case validator => exact (isPrefixCode_accountName hst).imp_left (congrArg VoteField.validator)
  case validatorIndex =>
    exact (Wire.uint16_code hst).imp_left (congrArg VoteField.validatorIndex)
  case signature => exact (isPrefixCode_signature hst).imp_left (congrArg VoteField.signature)

/-- `EncodeTo` writes the fields one after the other. -/
theorem Vote.encodeTo_eq (v : Vote) : v.encodeTo = message encodeField v.fields := by
  have hhash : (match v.blockHash with
      | some hash => writeCompactTag ⟨4, .bytes, by decide⟩ ++ hash.encodeTo
      | none => []) =
      (v.blockHash.map VoteField.blockHash).toList.flatMap fun f => encodeField (some f) := by
    cases v.blockHash with
    | none => rfl
    | some hash => exact (List.flatMap_singleton ..).symm
  rw [Vote.encodeTo, hhash, message, Vote.fields, Vote.openingFields, Vote.closingFields]
  simp only [List.flatMap_append, List.flatMap_singleton, apply_ite (List.flatMap _),
    List.flatMap_nil, encodeField_some, VoteField.tag, VoteField.value, List.append_assoc]
  rfl

/-- **A vote can be read back.** The encoding tells all fields, whatever follows it. -/
theorem Vote.fields_of_encodeTo {v w : Vote} {s t : Bytes}
    (hst : v.encodeTo ++ s = w.encodeTo ++ t) : v.fields = w.fields ∧ s = t := by
  rw [v.encodeTo_eq, w.encodeTo_eq] at hst
  exact isPrefixCode_encodeField.message hst

end decoding

/-! ## Sign bytes -/

/-- The votes agree in all that is signed. -/
structure Vote.Agrees (v w : Vote) : Prop where
  type : v.type.code = w.type.code
  height : v.height = w.height
  round : v.round = w.round
  blockHash : v.blockHash = w.blockHash
  timestamp : v.timestamp = w.timestamp
  validator : v.validator = w.validator
  validatorIndex : v.validatorIndex = w.validatorIndex

theorem Vote.agrees_of_fields {v w : Vote} (h : v.fields = w.fields) : v.Agrees w := by
  have hdecoded := congrArg Vote.ofFields h
  rw [Vote.ofFields_fields, Vote.ofFields_fields, Vote.mk.injEq] at hdecoded
  obtain ⟨htype, hheight, hround, hhash, htimestamp, hvalidator, hindex, -⟩ := hdecoded
  refine ⟨?_, hheight, hround, hhash, htimestamp, hvalidator, hindex⟩
  rw [← VoteType.code_ofCode v.type.code, htype, VoteType.code_ofCode]

section binding

variable [Wire] {v w : Vote}

/-- What `EncodeTo` writes up to the length of the name. -/
def Vote.head (v : Vote) : Bytes :=
  v.openingFields.flatMap (fun f => encodeField (some f)) ++
    writeCompactTag ⟨6, .bytes, by decide⟩ ++ writeCompactTag dataTag

/-- What it writes behind the name. -/
def Vote.tail (v : Vote) : Bytes := writeEndMarker ++ message encodeField v.closingFields

/-- The name stands in the middle of the encoded vote. -/
theorem Vote.encodeTo_eq_name {name : GoString} (hname : v.validator = ⟨some name⟩) :
    v.encodeTo = v.head ++ Wire.length name.length ++ name ++ v.tail := by
  rw [Vote.encodeTo_eq, message, Vote.fields, Vote.head, Vote.tail, message]
  simp only [List.flatMap_append, List.flatMap_singleton, encodeField_some, VoteField.tag,
    VoteField.value, hname, AccountName.encodeTo, writeBytes, lengthPrefixed, List.append_assoc]

theorem Vote.head_ne_nil (v : Vote) : v.head ≠ [] := by
  have htag : writeCompactTag dataTag ≠ [] :=
    Wire.mark_code.ne_nil (Option.some_ne_none dataTag)
  rw [Vote.head]
  exact fun hnil => htag (List.append_eq_nil_iff.mp hnil).2

/-- An encoded vote without its signature tells everything else. -/
theorem Vote.agrees_of_encodeTo
    (h : Vote.encodeTo { v with signature := ⟨[]⟩ } = Vote.encodeTo { w with signature := ⟨[]⟩ }) :
    v.Agrees w := by
  obtain ⟨hfields, -⟩ := Vote.fields_of_encodeTo (congrArg (· ++ []) h)
  obtain ⟨htype, hheight, hround, hhash, htimestamp, hvalidator, hindex⟩ :=
    Vote.agrees_of_fields hfields
  exact ⟨htype, hheight, hround, hhash, htimestamp, hvalidator, hindex⟩

/-- A name that is another vote up to and including its name: the encoded vote then ends in
the other one. -/
theorem Vote.encodeTo_nested {name : GoString} (hname : w.validator = ⟨some name⟩)
    (htail : v.tail = w.tail) :
    let nested := w.head ++ Wire.length name.length ++ name
    Vote.encodeTo { v with validator := ⟨some nested⟩ } =
      v.head ++ Wire.length nested.length ++ w.encodeTo := by
  intro nested
  have houter := Vote.encodeTo_eq_name (v := { v with validator := ⟨some nested⟩ }) rfl
  rw [Vote.encodeTo_eq_name hname, ← htail, houter]
  show v.head ++ Wire.length nested.length ++ nested ++ v.tail = _
  rw [List.append_assoc (v.head ++ _)]

theorem Vote.tail_unsigned (hindex : v.validatorIndex = w.validatorIndex) :
    Vote.tail { v with signature := ⟨[]⟩ } = Vote.tail { w with signature := ⟨[]⟩ } := by
  rw [Vote.tail, Vote.tail, Vote.closingFields, Vote.closingFields, hindex]

variable [Externals]

/-- **What sign bytes bind.** With equal sign bytes, chain and vote are the same exactly if
the chain IDs are equally long. They need not be: before every vote `v₂` a longer chain ID can
stand such that a vote with the other fields of `v₁`, and a name made up for it, has the same
sign bytes. -/
theorem voteSignBytes_binds_iff (hmarshal : ∀ v, Externals.marshalVote v = v.encodeTo) :
    (∀ (c₁ c₂ : GoString) (v₁ v₂ : Vote), voteSignBytes c₁ v₁ = voteSignBytes c₂ v₂ →
      (c₁ = c₂ ∧ v₁.Agrees v₂ ↔ c₁.length = c₂.length)) ∧
    ∀ (c₁ : GoString) (v₁ v₂ : Vote), isAccountNameEmpty v₂.validator = false →
      v₁.validatorIndex = v₂.validatorIndex →
      ∃ c₂ name, c₁.length < c₂.length ∧ isAccountNameEmpty name = false ∧
        voteSignBytes c₁ { v₁ with validator := name } = voteSignBytes c₂ v₂ := by
  constructor
  · intro c₁ c₂ v₁ v₂ heq
    rw [voteSignBytes, voteSignBytes, hmarshal, hmarshal] at heq
    constructor
    · rintro ⟨rfl, -⟩
      rfl
    · intro hlength
      obtain ⟨hchain, hvote⟩ := List.append_inj heq hlength
      exact ⟨hchain, Vote.agrees_of_encodeTo hvote⟩
  · intro c₁ v₁ v₂ hname hindex
    obtain ⟨name, hvalidator⟩ : ∃ name, v₂.validator = ⟨some name⟩ := by
      rcases hv : v₂.validator with ⟨_ | name⟩
      · rw [hv] at hname
        cases hname
      · exact ⟨name, rfl⟩
    have hnested := Vote.encodeTo_nested (v := { v₁ with signature := ⟨[]⟩ })
      (w := { v₂ with signature := ⟨[]⟩ }) hvalidator (Vote.tail_unsigned hindex)
    -- the longer chain ID ends where the other vote begins
    refine ⟨c₁ ++ (v₁.head ++ Wire.length (v₂.head ++ Wire.length name.length ++ name).length),
      ⟨some (v₂.head ++ Wire.length name.length ++ name)⟩, ?_, ?_, ?_⟩
    · have hpos := List.length_pos_of_ne_nil v₁.head_ne_nil
      rw [List.length_append, List.length_append]
      omega
    · simp [isAccountNameEmpty, v₂.head_ne_nil]
    · rw [voteSignBytes, voteSignBytes, hmarshal, hmarshal, List.append_assoc c₁]
      exact congrArg (c₁ ++ ·) hnested

end binding

/-! ## Two chains, one signature -/

section confused

/-- The three bits of a wire type. -/
def WireType.code : WireType → Nat
  | varint => 0
  | fixed64 => 1
  | bytes => 2
  | fixed32 => 3
  | svarint => 4
  | unassigned code => 5 + code

def WireType.ofCode : Nat → WireType
  | 0 => varint
  | 1 => fixed64
  | 2 => bytes
  | 3 => fixed32
  | 4 => svarint
  | n => unassigned (Fin.ofNat 3 (n - 5))

/-- A tag in one byte, four bits for the field number and three for the wire type. The last
bit says that the field number follows. -/
def compactTag : Option Tag → Bytes
  | none => [0]
  | some tag =>
    if tag.field < 16 then [Fin.ofNat 256 (16 * tag.field + 2 * tag.wireType.code)]
    else Fin.ofNat 256 (2 * tag.wireType.code + 1) :: varint tag.field

/-- What a reader makes of the two parts of a tag. -/
def Tag.ofParts (field : Nat) (wireType : WireType) : Option Tag :=
  if pos : 0 < field then some { field, wireType, pos } else none

def readTag : Reader Byte (Option Tag)
  | [] => none
  | b :: rest =>
    let wireType := WireType.ofCode (b.val / 2 % 8)
    if b.val % 2 = 0 then some (Tag.ofParts (b.val / 16) wireType, rest)
    else assign (fun field => Tag.ofParts field wireType) readVarint rest

theorem WireType.code_lt (w : WireType) : w.code < 8 := by
  cases w with
  | unassigned code =>
    have hlt := code.isLt
    show 5 + code.val < 8
    omega
  | _ => decide

theorem WireType.ofCode_code (w : WireType) : WireType.ofCode w.code = w := by
  cases w with
  | unassigned code =>
    revert code
    decide
  | _ => rfl

theorem Tag.ofParts_eq (tag : Tag) : Tag.ofParts tag.field tag.wireType = some tag :=
  dif_pos tag.pos

theorem readTag_restores : Restores (fun _ => True) compactTag readTag := by
  rintro (_ | tag) _ rest
  · rfl
  have hcode := tag.wireType.code_lt
  rw [compactTag]
  by_cases hshort : tag.field < 16
  · have hval : (Fin.ofNat 256 (16 * tag.field + 2 * tag.wireType.code)).val =
        16 * tag.field + 2 * tag.wireType.code := Nat.mod_eq_of_lt (by omega)
    rw [if_pos hshort, List.singleton_append, readTag, hval, if_pos (by omega),
      show (16 * tag.field + 2 * tag.wireType.code) / 16 = tag.field by omega,
      show (16 * tag.field + 2 * tag.wireType.code) / 2 % 8 = tag.wireType.code by omega,
      WireType.ofCode_code, tag.ofParts_eq]
  · have hval : (Fin.ofNat 256 (2 * tag.wireType.code + 1)).val = 2 * tag.wireType.code + 1 :=
      Nat.mod_eq_of_lt (by omega)
    rw [if_neg hshort, List.cons_append, readTag, hval, if_neg (by omega),
      show (2 * tag.wireType.code + 1) / 2 % 8 = tag.wireType.code by omega,
      WireType.ofCode_code, assign_eq (varint_restores _ trivial rest), tag.ofParts_eq]

/-- Cramberry's tags, and numbers in base 128. -/
@[reducible] def varintWire : Wire where
  mark := compactTag
  int32 x := varint (zigzag x)
  int64 x := varint (zigzag x)
  uint16 := varint
  length := varint
  mark_code := readTag_restores.isPrefixCode
  int32_code := zigzag_restores.isPrefixCode
  int64_code := zigzag_restores.isPrefixCode
  uint16_code := varint_restores.isPrefixCode
  length_code := varint_restores.isPrefixCode

attribute [local instance] varintWire

@[reducible] def varintExternals : Externals := { transparent with marshalVote := Vote.encodeTo }

attribute [local instance] varintExternals

/-- A precommit of the validator `b`. -/
def shortVote : Vote :=
  { Vote.zero with
    type := .precommit
    height := 5
    blockHash := some ⟨[7]⟩
    validator := ⟨some [98]⟩ }

/-- A nil prevote of a validator whose name is `shortVote` up to the end of its name. -/
def nestedVote : Vote :=
  { Vote.zero with
    type := .prevote
    height := 3
    validator := ⟨some [20, 4, 40, 10, 68, 20, 1, 7, 0, 100, 20, 1, 98]⟩ }

/-- The ID of a chain, and one that continues it with `nestedVote` up to its name. -/
def chainA : GoString := [97]
def chainB : GoString := [97, 20, 2, 40, 6, 100, 20, 13]

/-- The signature of the prevote on one chain is a signature of the precommit on the other. -/
theorem signBytes_confused :
    isAccountNameEmpty nestedVote.validator = false ∧
    isAccountNameEmpty shortVote.validator = false ∧
    voteSignBytes chainA nestedVote = voteSignBytes chainB shortVote ∧
    chainA ≠ chainB ∧ nestedVote.height ≠ shortVote.height ∧
    nestedVote.blockHash ≠ shortVote.blockHash := by
  decide +kernel

theorem voteSignBytes_binds_short :
    (voteSignBytes chainA shortVote = voteSignBytes chainA shortVote ∧
      shortVote.Agrees shortVote) ∧
    ∃ c name, chainA.length < c.length ∧ isAccountNameEmpty name = false ∧
      voteSignBytes chainA { nestedVote with validator := name } = voteSignBytes c shortVote := by
  obtain ⟨hsame, hconfused⟩ := voteSignBytes_binds_iff fun _ => rfl
  exact ⟨⟨rfl, ((hsame chainA chainA shortVote shortVote rfl).mpr rfl).2⟩,
    hconfused chainA nestedVote shortVote rfl rfl⟩

end confused

end Leaderberry
