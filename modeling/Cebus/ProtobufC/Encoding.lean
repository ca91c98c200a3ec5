import Cebus.ProtobufC.Pack

/-!
# What a message is on the wire

Each field that is there becomes a record: its number and wire type, and the bytes that
follow its tag. A record is given as the library keeps it when it does not know the field.

* `messageGetPackedSize_eq`: the size that is computed is that of the records.
-/

namespace Cebus.ProtobufC

variable {δ : Type}

/-! ## Records -/

/-- The bytes of a record. -/
def UnknownField.bytes (record : UnknownField) : List UInt8 :=
  setWireType record.wireType (Base128.encode (8 * record.tag.toNat)) ++ record.data

/-- Bytes behind their number. -/
def delimited (payload : List UInt8) : List UInt8 :=
  Base128.encode payload.length ++ payload

/-- The wire type of the record of a member. -/
def Member.wireType : Member δ → UInt8
  | .scalar type _ => type.wireType
  | _ => WireType.lengthPrefixed

/-- The bytes of an element of a packed array. -/
def Member.element : Member δ → List UInt8
  | .scalar type value => type.pack value
  | _ => []

section

variable (descriptors : δ → MessageDescriptor δ)

mutual

/-- The records of a message. -/
def Message.records : Message δ → List UnknownField
  | .mk descriptor slots unknownFields =>
    slotsRecords (descriptors descriptor).fields slots ++ unknownFields

/-- The records of the fields. -/
def slotsRecords : List (FieldDescriptor δ) → List (Slot δ) → List UnknownField
  | field :: fields, slot :: slots => slotRecords field slot ++ slotsRecords fields slots
  | _, _ => []

/-- The records of a field: none if it is absent, and one if its elements are packed. -/
def slotRecords (field : FieldDescriptor δ) : Slot δ → List UnknownField
  | .single member =>
    if field.label = .required || member.present then
      [⟨field.id, member.wireType, memberData member⟩]
    else []
  | .flagged has member =>
    if has then [⟨field.id, member.wireType, memberData member⟩] else []
  | .repeated members =>
    if field.packed then
      if members.isEmpty then []
      else [⟨field.id, WireType.lengthPrefixed, delimited (members.flatMap Member.element)⟩]
    else membersRecords field members

/-- One record for each element. -/
def membersRecords (field : FieldDescriptor δ) : List (Member δ) → List UnknownField
  | [] => []
  | member :: members =>
    ⟨field.id, member.wireType, memberData member⟩ :: membersRecords field members

/-- What follows the tag of a member. -/
def memberData : Member δ → List UInt8
  | .scalar type value => type.pack value
  | .string none | .message none => delimited []
  | .string (some str) => delimited str.bytes
  | .bytes data => delimited data
  | .message (some sub) => delimited ((Message.records sub).flatMap UnknownField.bytes)

end

/-- The bytes of a message. -/
def Message.bytes (message : Message δ) : List UInt8 :=
  (message.records descriptors).flatMap UnknownField.bytes

end

/-! ## Sizes -/

theorem length_setWireType (w : UInt8) (bs : List UInt8) :
    (setWireType w bs).length = bs.length := by
  cases bs with
  | nil => rfl
  | cons b bs => rfl

theorem UnknownField.length_bytes (record : UnknownField) :
    record.bytes.length = getTagSize record.tag + record.data.length := by
  rw [UnknownField.bytes, List.length_append, length_setWireType, getTagSize_eq]

theorem unknownFieldGetPackedSize_eq (record : UnknownField) :
    unknownFieldGetPackedSize record = record.bytes.length := record.length_bytes.symm

theorem length_flatMap_bytes (records : List UnknownField) :
    (records.flatMap UnknownField.bytes).length = (records.map unknownFieldGetPackedSize).sum := by
  rw [List.length_flatMap]
  exact congrArg List.sum
    (List.map_congr_left fun record _ => (unknownFieldGetPackedSize_eq record).symm)

variable {n : ℕ}

theorem toNat_ofNat_length (h : n < 2 ^ 32) : (UInt32.ofNat n).toNat = n :=
  UInt32.toNat_ofNat_of_lt' h

theorem lengthSize_eq (h : n < 2 ^ 32) : lengthSize n = (Base128.encode n).length := by
  rw [lengthSize, uint32Size_eq, toNat_ofNat_length h]

theorem lengthPack_eq (h : n < 2 ^ 32) : lengthPack n = Base128.encode n := by
  rw [lengthPack, uint32Pack_eq, toNat_ofNat_length h]

theorem length_delimited (payload : List UInt8) :
    (delimited payload).length = (Base128.encode payload.length).length + payload.length :=
  List.length_append

theorem length_le_delimited (payload : List UInt8) :
    payload.length ≤ (delimited payload).length := by
  rw [length_delimited]
  omega

theorem lengthSize_delimited {payload : List UInt8} (h : (delimited payload).length < 2 ^ 32) :
    lengthSize payload.length + payload.length = (delimited payload).length := by
  have hle := length_le_delimited payload
  rw [lengthSize_eq (by omega), length_delimited]

/-- The size of a number is how many bytes it is packed into. -/
theorem ScalarType.packedSize_eq (type : ScalarType) (value : type.Carrier) :
    type.packedSize value = (type.pack value).length := by
  cases type with
  | sint32 => exact (uint32Size_eq _).trans (congrArg List.length (uint32Pack_eq _)).symm
  | enum | int32 =>
    exact (int32Size_eq value).trans (congrArg List.length (int32Pack_eq value)).symm
  | uint32 => exact (uint32Size_eq value).trans (congrArg List.length (uint32Pack_eq value)).symm
  | sint64 => exact (uint64Size_eq _).trans (congrArg List.length (uint64Pack_eq _)).symm
  | int64 | uint64 =>
    exact (uint64Size_eq value).trans (congrArg List.length (uint64Pack_eq value)).symm
  | sfixed32 | fixed32 | float => exact (LittleEndian.length_toBytes 4 _).symm
  | sfixed64 | fixed64 | double => exact (LittleEndian.length_toBytes 8 _).symm
  | bool => rfl

theorem length_membersRecords (descriptors : δ → MessageDescriptor δ) (field : FieldDescriptor δ)
    (members : List (Member δ)) :
    ((membersRecords descriptors field members).flatMap UnknownField.bytes).length =
      getTagSize field.id * members.length +
        ((membersRecords descriptors field members).map (·.data.length)).sum := by
  induction members with
  | nil => rfl
  | cons member members ih =>
    rw [membersRecords, List.flatMap_cons, List.length_append, ih, UnknownField.length_bytes,
      List.map_cons, List.sum_cons, List.length_cons]
    simp only
    rw [Nat.mul_succ]
    omega

section

variable [DecidableEq δ] (descriptors : δ → MessageDescriptor δ)

/-- An element of a packed array is a number. -/
theorem Member.isScalar {type : FieldType δ} {member : Member δ} (hp : type.isPackable = true)
    (ht : member.hasType type = true) :
    ∃ (scalar : ScalarType) (value : scalar.Carrier), type = .scalar scalar ∧
      member = .scalar scalar value := by
  cases type with
  | scalar type =>
    cases member with
    | scalar scalar value =>
      obtain rfl : scalar = type := of_decide_eq_true ht
      exact ⟨scalar, value, rfl, rfl⟩
    | string => cases ht
    | bytes => cases ht
    | message value => cases value <;> cases ht
  | string | bytes | message => cases hp

theorem sum_data_eq (field : FieldDescriptor δ) {type : FieldType δ} {members : List (Member δ)}
    (hp : type.isPackable = true) (ht : members.all (·.hasType type) = true) :
    ((membersRecords descriptors field members).map (·.data.length)).sum =
      (members.flatMap Member.element).length := by
  induction members with
  | nil => rfl
  | cons member members ih =>
    rw [List.all_cons, Bool.and_eq_true] at ht
    obtain ⟨scalar, value, -, rfl⟩ := Member.isScalar hp ht.1
    rw [membersRecords, List.map_cons, List.sum_cons, ih ht.2, List.flatMap_cons,
      List.length_append]
    rfl

/-- What the slot of a field holds when the message is valid. -/
theorem Slot.valid_repeated {field : FieldDescriptor δ} {members : List (Member δ)}
    (h : (Slot.repeated members).valid field = true) :
    members.all (·.hasType field.type) = true ∧ members.all Member.present = true := by
  rw [Slot.valid, Slot.fits, Slot.checked, Bool.and_eq_true, Bool.and_eq_true] at h
  exact ⟨h.1.2, h.2⟩

mutual

theorem messageGetPackedSize_eq : ∀ (message : Message δ), message.valid descriptors = true →
    (message.bytes descriptors).length < 2 ^ 32 →
    messageGetPackedSize descriptors message = .ok (message.bytes descriptors).length
  | .mk descriptor slots unknownFields, hv, hlt => by
    rw [Message.valid, Message.all, Bool.and_eq_true] at hv
    rw [Message.bytes, Message.records, List.flatMap_append, List.length_append] at hlt ⊢
    rw [messageGetPackedSize, slotsGetPackedSize_eq _ slots (descriptors descriptor).packed
      hv.1 hv.2 (by omega), Fallible.ok_bind, length_flatMap_bytes unknownFields]

theorem slotsGetPackedSize_eq : ∀ (fields : List (FieldDescriptor δ)) (slots : List (Slot δ)),
    (∀ field ∈ fields, field.packed = true →
      field.label = .repeated ∧ field.type.isPackable = true) →
    slotsHold Slot.valid fields slots = true →
    slotsAll (Message.slotsValid descriptors) slots = true →
    ((slotsRecords descriptors fields slots).flatMap UnknownField.bytes).length < 2 ^ 32 →
    slotsGetPackedSize descriptors fields slots =
      .ok ((slotsRecords descriptors fields slots).flatMap UnknownField.bytes).length
  | [], [], _, _, _, _ => rfl
  | field :: fields, slot :: slots, hp, hv, ha, hlt => by
    rw [slotsHold, Bool.and_eq_true] at hv
    rw [slotsAll, Bool.and_eq_true] at ha
    rw [slotsRecords, List.flatMap_append, List.length_append] at hlt ⊢
    rw [slotsGetPackedSize, slotGetPackedSize_eq field slot
      (fun h => (hp field List.mem_cons_self h).2) hv.1 ha.1 (by omega), Fallible.ok_bind,
      slotsGetPackedSize_eq fields slots (fun f hf => hp f (List.mem_cons_of_mem field hf)) hv.2
        ha.2 (by omega)]
    rfl

theorem slotGetPackedSize_eq (field : FieldDescriptor δ) : ∀ (slot : Slot δ),
    (field.packed = true → field.type.isPackable = true) →
    slot.valid field = true → slotAll (Message.slotsValid descriptors) slot = true →
    ((slotRecords descriptors field slot).flatMap UnknownField.bytes).length < 2 ^ 32 →
    slotGetPackedSize descriptors field slot =
      .ok ((slotRecords descriptors field slot).flatMap UnknownField.bytes).length
  | .single member, _, _, ha, hlt => by
    rw [slotRecords] at hlt ⊢
    rw [slotGetPackedSize]
    split_ifs at hlt ⊢ with hthere
    · rw [List.flatMap_singleton, UnknownField.length_bytes] at hlt ⊢
      rw [memberGetPackedSize_eq member ha (by simp only at hlt; omega)]
      rfl
    · rfl
  | .flagged has member, _, _, ha, hlt => by
    rw [slotRecords] at hlt ⊢
    rw [slotGetPackedSize]
    split_ifs at hlt ⊢ with hthere
    · rw [List.flatMap_singleton, UnknownField.length_bytes] at hlt ⊢
      rw [memberGetPackedSize_eq member ha (by simp only at hlt; omega)]
      rfl
    · rfl
  | .repeated members, hp, hv, ha, hlt => by
    obtain ⟨htype, hpresent⟩ := Slot.valid_repeated hv
    rw [slotRecords] at hlt ⊢
    rw [slotGetPackedSize]
    cases members with
    | nil =>
      rw [List.isEmpty_nil, if_pos rfl, if_pos rfl, membersRecords, ite_self]
      rfl
    | cons member members =>
      rw [List.isEmpty_cons, if_neg Bool.false_ne_true] at hlt ⊢
      rw [if_neg Bool.false_ne_true]
      split_ifs at hlt ⊢ with hpacked
      · have hsum := sum_data_eq descriptors field (hp hpacked) htype
        rw [List.flatMap_singleton, UnknownField.length_bytes] at hlt ⊢
        simp only at hlt ⊢
        have hle := length_le_delimited ((member :: members).flatMap Member.element)
        rw [elementsGetPackedSize_eq field (member :: members) hpresent ha (by omega), hsum,
          Fallible.ok_bind, Nat.add_assoc, lengthSize_delimited (by omega)]
      · rw [length_membersRecords] at hlt ⊢
        rw [elementsGetPackedSize_eq field (member :: members) hpresent ha (by omega)]
        rfl

theorem elementsGetPackedSize_eq (field : FieldDescriptor δ) : ∀ (members : List (Member δ)),
    members.all Member.present = true → membersAll (Message.slotsValid descriptors) members = true →
    ((membersRecords descriptors field members).map (·.data.length)).sum < 2 ^ 32 →
    elementsGetPackedSize descriptors members =
      .ok ((membersRecords descriptors field members).map (·.data.length)).sum
  | [], _, _, _ => rfl
  | member :: members, hv, ha, hlt => by
    rw [List.all_cons, Bool.and_eq_true] at hv
    rw [membersAll, Bool.and_eq_true] at ha
    rw [membersRecords, List.map_cons, List.sum_cons] at hlt ⊢
    simp only at hlt ⊢
    rw [elementsGetPackedSize, if_pos hv.1, memberGetPackedSize_eq member ha.1 (by omega),
      Fallible.ok_bind, elementsGetPackedSize_eq field members hv.2 ha.2 (by omega)]
    rfl

theorem memberGetPackedSize_eq : ∀ (member : Member δ),
    memberAll (Message.slotsValid descriptors) member = true →
    (memberData descriptors member).length < 2 ^ 32 →
    memberGetPackedSize descriptors member = .ok (memberData descriptors member).length
  | .scalar type value, _, _ => congrArg Except.ok (type.packedSize_eq value)
  | .string none, _, hlt => by
    rw [memberData] at hlt ⊢
    exact congrArg Except.ok (lengthSize_delimited hlt)
  | .string (some str), _, hlt => by
    rw [memberData] at hlt ⊢
    exact congrArg Except.ok (lengthSize_delimited hlt)
  | .bytes data, _, hlt => by
    rw [memberData] at hlt ⊢
    exact congrArg Except.ok (lengthSize_delimited hlt)
  | .message none, _, hlt => by
    rw [memberData] at hlt ⊢
    exact congrArg Except.ok (lengthSize_delimited hlt)
  | .message (some sub), ha, hlt => by
    rw [memberAll] at ha
    rw [memberData, ← Message.bytes] at hlt ⊢
    have hle := length_le_delimited (sub.bytes descriptors)
    rw [memberGetPackedSize, messageGetPackedSize_eq sub ha (by omega)]
    exact congrArg Except.ok (lengthSize_delimited hlt)

end

end

end Cebus.ProtobufC
