import Cebus.ProtobufC.Decode
import Cebus.ProtobufC.PackInPlace

/-!
# Members that are written are read again

* `parseValue_pack`: a number.
* `items_pack`: a packed array of numbers.
* `slotRecords_framed`: each record of a field can be told from what follows it.
-/

namespace Cebus.ProtobufC

variable {δ : Type}

/-! ## Numbers -/

namespace ScalarType

variable {type : ScalarType} {value : type.Carrier}

/-- **A number that is written is read again.** -/
theorem parseValue_pack (type : ScalarType) (value : type.Carrier) :
    type.parseValue (type.pack value) = value := by
  cases type with
  | enum | int32 =>
    exact (congrArg parseUint32 (int32Pack_eq value)).trans (parseUint32_signExtend value)
  | uint32 => exact (congrArg parseUint32 (uint32Pack_eq value)).trans (parseUint32_encode value)
  | sint32 =>
    exact (congrArg (unzigzag32 <| parseUint32 ·) (uint32Pack_eq _)).trans
      ((congrArg unzigzag32 (parseUint32_encode _)).trans (unzigzag32_zigzag32 value))
  | int64 | uint64 =>
    exact (congrArg parseUint64 (uint64Pack_eq value)).trans (parseUint64_encode value)
  | sint64 =>
    exact (congrArg (unzigzag64 <| parseUint64 ·) (uint64Pack_eq _)).trans
      ((congrArg unzigzag64 (parseUint64_encode _)).trans (unzigzag64_zigzag64 value))
  | sfixed32 | fixed32 | float => exact parseFixedUint32_fixed32Pack value
  | sfixed64 | fixed64 | double => exact parseFixedUint64_fixed64Pack value
  | bool => exact parseBoolean_booleanPack value

/-- A number of no fixed size ends with its only low byte. -/
theorem codeWord_pack (h : type.fixedSize = none) (value : type.Carrier) :
    Base128.CodeWord (type.pack value) := by
  have h32 (v : UInt32) : Base128.CodeWord (uint32Pack v) := by
    rw [uint32Pack_eq]
    exact Base128.codeWord_encode _
  have h64 (v : UInt64) : Base128.CodeWord (uint64Pack v) := by
    rw [uint64Pack_eq]
    exact Base128.codeWord_encode _
  have hsigned (v : UInt32) : Base128.CodeWord (int32Pack v) := by
    rw [int32Pack_eq]
    exact Base128.codeWord_encode _
  cases type with
  | uint32 => exact h32 value
  | sint32 => exact h32 (zigzag32 value)
  | enum | int32 => exact hsigned value
  | int64 | uint64 => exact h64 value
  | sint64 => exact h64 (zigzag64 value)
  | sfixed32 | fixed32 | float | sfixed64 | fixed64 | double => cases h
  | bool =>
    refine ⟨[], if value then 1 else 0, rfl, fun b hb => absurd hb List.not_mem_nil, ?_⟩
    cases value <;> decide

theorem length_varint (h : type.fixedSize = none) (value : type.Carrier) :
    (type.pack value).length ≤ 10 := by
  have hlen := (type.length_pack (δ := Unit) value).2
  cases type with
  | sfixed32 | fixed32 | float | sfixed64 | fixed64 | double => cases h
  | sint32 | enum | int32 | uint32 | sint64 | int64 | uint64 | bool => exact hlen

theorem terminator_pack (h : type.fixedSize = none) (value : type.Carrier) (rest : List UInt8) :
    terminator 10 (type.pack value ++ rest) = some ((type.pack value).length - 1) :=
  terminator_append (codeWord_pack h value) (length_varint h value) rest

theorem length_pack_pos (h : type.fixedSize = none) (value : type.Carrier) :
    0 < (type.pack value).length := by
  obtain ⟨front, last, hpack, -⟩ := codeWord_pack h value
  rw [hpack, List.length_append]
  exact Nat.succ_pos _

theorem length_fixed {size : ℕ} (h : type.fixedSize = some size) (value : type.Carrier) :
    (type.pack value).length = size := by
  cases type with
  | sfixed32 | fixed32 | float => cases h; exact LittleEndian.length_toBytes 4 _
  | sfixed64 | fixed64 | double => cases h; exact LittleEndian.length_toBytes 8 _
  | sint32 | enum | int32 | uint32 | sint64 | int64 | uint64 | bool => cases h

theorem wireType_varint (h : type.fixedSize = none) : type.wireType = WireType.varint := by
  cases type with
  | sfixed32 | fixed32 | float | sfixed64 | fixed64 | double => cases h
  | sint32 | enum | int32 | uint32 | sint64 | int64 | uint64 | bool => rfl

theorem wireType_fixed {size : ℕ} (h : type.fixedSize = some size) :
    size = 4 ∧ type.wireType = WireType.bits32 ∨ size = 8 ∧ type.wireType = WireType.bits64 := by
  cases type with
  | sfixed32 | fixed32 | float => cases h; exact .inl ⟨rfl, rfl⟩
  | sfixed64 | fixed64 | double => cases h; exact .inr ⟨rfl, rfl⟩
  | sint32 | enum | int32 | uint32 | sint64 | int64 | uint64 | bool => cases h

/-- A number in an array is read again. -/
theorem scanElement_pack (value : type.Carrier) (rest : List UInt8) :
    type.scanElement (type.pack value ++ rest) = some (value, rest) := by
  rw [scanElement]
  cases hsize : type.fixedSize with
  | some size =>
    have hlen := length_fixed hsize value
    dsimp only
    rw [if_neg (by rw [List.length_append]; omega), List.take_left' hlen, List.drop_left' hlen,
      parseValue_pack]
  | none =>
    have hpos := length_pack_pos hsize value
    dsimp only
    rw [terminator_pack hsize, Option.map_some, Nat.sub_add_cancel hpos, List.take_left,
      List.drop_left, parseValue_pack]

/-- **A packed array is read again.** -/
theorem items_pack (values : List type.Carrier) :
    type.elements.items (values.flatMap type.pack) = some values :=
  Scanner.items_flatMap fun value _ rest => scanElement_pack value rest

/-- What follows the tag of a number can be told from what follows it. -/
theorem scanData_pack (value : type.Carrier) :
    scanData type.wireType (type.pack value) = some ((type.pack value).length, 0) := by
  cases hsize : type.fixedSize with
  | none =>
    have hend := terminator_pack hsize value []
    rw [List.append_nil] at hend
    rw [wireType_varint hsize, scanData, if_pos rfl, hend, Option.map_some,
      Nat.sub_add_cancel (length_pack_pos hsize value)]
  | some size =>
    have hlen := length_fixed hsize value
    obtain ⟨rfl, hwire⟩ | ⟨rfl, hwire⟩ := wireType_fixed hsize
    · rw [hwire, scanData, if_neg (by decide), if_neg (by decide), if_neg (by decide), if_pos rfl,
        if_neg (Nat.not_lt.mpr (Nat.le_of_eq hlen.symm)), hlen]
    · rw [hwire, scanData, if_neg (by decide), if_pos rfl,
        if_neg (Nat.not_lt.mpr (Nat.le_of_eq hlen.symm)), hlen]

theorem accepts_wireType (type : ScalarType) : type.accepts type.wireType = true := by
  rw [accepts, decide_eq_true rfl, Bool.or_true]

theorem wireType_ne (type : ScalarType) : type.wireType ≠ WireType.lengthPrefixed := by
  cases type <;> decide

end ScalarType

/-! ## Framing -/

section

variable {record : UnknownField} {tag : UInt32} {payload : List UInt8} {p : ℕ}

theorem framed_of_scanData (htag : record.tag ≠ 0)
    (h : scanData record.wireType record.data = some (record.data.length, p)) :
    record.framed = true := by
  rw [UnknownField.framed, prefixLen_eq h, h, decide_eq_true htag, decide_eq_true rfl,
    Bool.true_and]

theorem scanData_delimited (h : payload.length < 2 ^ 31) :
    scanData WireType.lengthPrefixed (delimited payload) =
      some ((delimited payload).length, (Base128.encode payload.length).length) := by
  have hscan := scanLengthPrefixedData_delimited h []
  rw [List.append_nil] at hscan
  rw [scanData, if_neg (by decide), if_neg (by decide), if_pos rfl, hscan]

theorem framed_delimited (htag : tag ≠ 0) (h : payload.length < 2 ^ 31) :
    (UnknownField.mk tag WireType.lengthPrefixed (delimited payload)).framed = true :=
  framed_of_scanData htag (scanData_delimited h)

/-- Bytes behind their number are what the record holds. -/
theorem payload_delimited (h : payload.length < 2 ^ 31) :
    (UnknownField.mk tag WireType.lengthPrefixed (delimited payload)).payload = payload := by
  rw [UnknownField.payload, prefixLen_eq (scanData_delimited h), delimited, List.drop_left]

end

/-! ## The records of a field -/

section

variable {descriptors : δ → MessageDescriptor δ} {field : FieldDescriptor δ}

/-- What follows the tag of a member is a number, or bytes behind their number. -/
theorem memberData_cases (descriptors : δ → MessageDescriptor δ) (member : Member δ) :
    (∃ (type : ScalarType) (value : type.Carrier), member = .scalar type value) ∨
      member.wireType = WireType.lengthPrefixed ∧
        ∃ payload, memberData descriptors member = delimited payload := by
  cases member with
  | scalar type value => exact .inl ⟨type, value, rfl⟩
  | string str => cases str <;> exact .inr ⟨rfl, _, rfl⟩
  | bytes data => exact .inr ⟨rfl, data, rfl⟩
  | message sub => cases sub <;> exact .inr ⟨rfl, _, rfl⟩

theorem framed_member {id : UInt32} {member : Member δ} (hid : id ≠ 0)
    (hlt : (memberData descriptors member).length < 2 ^ 31) :
    (UnknownField.mk id member.wireType (memberData descriptors member)).framed = true := by
  obtain ⟨type, value, rfl⟩ | ⟨hwire, payload, hdata⟩ :=
    memberData_cases descriptors member
  · exact framed_of_scanData hid (type.scanData_pack value)
  · rw [hdata] at hlt ⊢
    rw [hwire]
    exact framed_delimited hid (Nat.lt_of_le_of_lt (length_le_delimited payload) hlt)

theorem membersRecords_framed (hid : field.id ≠ 0) {members : List (Member δ)} :
    ∀ record ∈ membersRecords descriptors field members, record.tag = field.id ∧
      (record.data.length < 2 ^ 31 → record.framed = true) := by
  induction members with
  | nil => exact fun record hrecord => absurd hrecord List.not_mem_nil
  | cons member members ih =>
    rw [membersRecords]
    exact List.forall_mem_cons.mpr ⟨⟨rfl, framed_member hid⟩, ih⟩

/-- **Each record of a field** has its number, and can be told from what follows it. -/
theorem slotRecords_framed (hid : field.id ≠ 0) (slot : Slot δ) :
    ∀ record ∈ slotRecords descriptors field slot, record.tag = field.id ∧
      (record.data.length < 2 ^ 31 → record.framed = true) := by
  have hnone : ∀ record ∈ ([] : List UnknownField), record.tag = field.id ∧
      (record.data.length < 2 ^ 31 → record.framed = true) :=
    fun record hrecord => absurd hrecord List.not_mem_nil
  cases slot with
  | single member | flagged has member =>
    rw [slotRecords]
    split_ifs with hthere
    · exact List.forall_mem_singleton.mpr ⟨rfl, framed_member hid⟩
    · exact hnone
  | repeated members =>
    rw [slotRecords]
    split_ifs with hpacked hempty
    · exact hnone
    · exact List.forall_mem_singleton.mpr ⟨rfl, fun hlt =>
        framed_delimited hid (Nat.lt_of_le_of_lt (length_le_delimited _) hlt)⟩
    · exact membersRecords_framed hid

end

/-! ## Reading members -/

section

variable [DecidableEq δ] {descriptors : δ → MessageDescriptor δ}
variable {decode : δ → List UInt8 → Option (Message δ)} {field : FieldDescriptor δ}
variable {type : FieldType δ} {tag : UInt32}

/-- The elements of a packed array are numbers of one type. -/
theorem exists_values {scalar : ScalarType} {members : List (Member δ)}
    (ht : members.all (·.hasType (.scalar scalar)) = true) :
    ∃ values : List scalar.Carrier, members = values.map (.scalar scalar) := by
  induction members with
  | nil => exact ⟨[], rfl⟩
  | cons member members ih =>
    rw [List.all_cons, Bool.and_eq_true] at ht
    obtain ⟨values, rfl⟩ := ih ht.2
    obtain ⟨scalar', value, htype, rfl⟩ := Member.isScalar rfl ht.1
    obtain rfl := FieldType.scalar.inj htype
    exact ⟨value :: values, rfl⟩

theorem arrayOf_elements {members : List (Member δ)} (hp : type.isPackable = true)
    (ht : members.all (·.hasType type) = true) :
    type.arrayOf (members.flatMap Member.element) = some members := by
  cases type with
  | scalar scalar =>
    obtain ⟨values, rfl⟩ := exists_values ht
    have hpack : (values.map (Member.scalar (δ := δ) scalar)).flatMap Member.element =
        values.flatMap scalar.pack := List.flatMap_map _ _ values
    rw [FieldType.arrayOf, hpack, ScalarType.items_pack]
    rfl
  | string | bytes | message => cases hp

end

end Cebus.ProtobufC
