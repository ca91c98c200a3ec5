import Cebus.ProtobufC.IntRange
import Cebus.Utils.CString
import Mathlib.Algebra.GroupWithZero.Nat

/-!
# Descriptors and messages (`protobuf-c.h`)

A message is described by a table of its fields. Descriptors point to each other, for a
field may hold another message; here they are the elements of a type `δ`, and what is
at each of them is given apart.

The fields are of the kinds that `protoc-c` writes for the `.proto` files of the repository,
which are `proto2` files: none has a default value, and none belongs to a `oneof`.

* `MessageDescriptor.lookup_eq`: a field is found by its number.
-/

namespace Cebus.ProtobufC

/-! ## Descriptors -/

/-- `ProtobufCLabel`. -/
inductive Label where
  | required | optional | repeated
deriving DecidableEq

/-- `ProtobufCType`: the types whose values are numbers. -/
inductive ScalarType where
  | int32 | sint32 | sfixed32 | int64 | sint64 | sfixed64 | uint32 | fixed32 | uint64 | fixed64
  | float | double | bool | enum
deriving DecidableEq

/-- `ProtobufCType`, with the descriptor of the messages that the field holds. -/
inductive FieldType (δ : Type) where
  | scalar (type : ScalarType)
  | string
  | bytes
  | message (descriptor : δ)
deriving DecidableEq

/-- `ProtobufCFieldDescriptor`; of its flags only `PROTOBUF_C_FIELD_FLAG_PACKED`. -/
structure FieldDescriptor (δ : Type) where
  id : UInt32
  label : Label
  type : FieldType δ
  packed : Bool
deriving DecidableEq

variable {δ : Type}

/-- `is_packable_type` (`protobuf-c.c`, lines 2878–2885). -/
def FieldType.isPackable : FieldType δ → Bool
  | .scalar _ => true
  | _ => false

/-- The numbers of fields, as `protoc-c` writes them into the table of ranges. -/
def fieldNumbers (fields : List (FieldDescriptor δ)) : List ℤ := fields.map (·.id.toNat)

/-- `ProtobufCMessageDescriptor`, as `protoc-c` writes it: the fields are sorted by their
    numbers, which are below 2^29, and only repeated numbers are packed. -/
structure MessageDescriptor (δ : Type) where
  fields : List (FieldDescriptor δ)
  fieldRanges : List IntRange
  fieldRanges_eq : fieldRanges = writeIntRanges (fieldNumbers fields)
  sorted : (fieldNumbers fields).Pairwise (· < ·)
  numbers : ∀ field ∈ fields, 0 < field.id.toNat ∧ field.id.toNat < 2 ^ 29
  packed : ∀ field ∈ fields, field.packed = true →
    field.label = .repeated ∧ field.type.isPackable = true

namespace MessageDescriptor

variable (desc : MessageDescriptor δ)

/-- The field with a tag, by `int_range_lookup`; the tag is taken for an `int`. -/
def lookup (tag : UInt32) : Except Failure (Option ℕ) :=
  intRangeLookup desc.fieldRanges (int32 tag.toNat)

theorem rising : Rising (fieldNumbers desc.fields) := by
  have hbetween (v : ℤ) (hv : v ∈ fieldNumbers desc.fields) : 0 ≤ v ∧ v < 2 ^ 29 := by
    obtain ⟨field, hfield, rfl⟩ := List.mem_map.mp hv
    have hnumber := desc.numbers field hfield
    omega
  have hlen := length_le_of_pairwise (by decide) desc.sorted hbetween
  refine ⟨desc.sorted, fun v hv => ?_, fun v hv => ?_, by omega⟩
  · have hv' := hbetween v hv
    omega
  · have hv' := hbetween v hv
    omega

/-- The index of the field with a tag, if there is one. -/
def index (tag : UInt32) : Option ℕ := desc.fields.findIdx? fun field => decide (field.id = tag)

theorem id_injective {i j : ℕ} {f g : FieldDescriptor δ} (hf : desc.fields[i]? = some f)
    (hg : desc.fields[j]? = some g) (hid : f.id = g.id) : i = j := by
  have hf' : (fieldNumbers desc.fields)[i]? = some (f.id.toNat : ℤ) := by
    rw [fieldNumbers, List.getElem?_map, hf, Option.map_some]
  have hg' : (fieldNumbers desc.fields)[j]? = some (g.id.toNat : ℤ) := by
    rw [fieldNumbers, List.getElem?_map, hg, Option.map_some]
  have hlt := desc.rising.lt hf' hg'
  have hgt := desc.rising.lt hg' hf'
  rw [hid] at hlt hgt
  omega

theorem index_eq_some_iff {tag : UInt32} {i : ℕ} :
    desc.index tag = some i ↔ ∃ field, desc.fields[i]? = some field ∧ field.id = tag := by
  constructor
  · intro h
    obtain ⟨hi, hid, -⟩ := List.findIdx?_eq_some_iff_getElem.mp h
    exact ⟨_, List.getElem?_eq_getElem hi, of_decide_eq_true hid⟩
  · rintro ⟨field, hfield, hid⟩
    have hmem := List.mem_of_getElem? hfield
    cases hfound : desc.index tag with
    | none =>
      have hnone := List.findIdx?_eq_none_iff.mp hfound field hmem
      exact absurd hid (of_decide_eq_false hnone)
    | some j =>
      obtain ⟨hj, hid', -⟩ := List.findIdx?_eq_some_iff_getElem.mp hfound
      have heq := desc.id_injective (List.getElem?_eq_getElem hj) hfield
        ((of_decide_eq_true hid').trans hid.symm)
      rw [heq]

/-- **A field is found by its number**, and no field is found by another one. -/
theorem lookup_eq (tag : UInt32) : desc.lookup tag = .ok (desc.index tag) := by
  obtain ⟨found, hfound, hiff⟩ := intRangeLookup_iff desc.rising (int32 tag.toNat)
  rw [lookup, desc.fieldRanges_eq, hfound]
  congr 1
  ext i
  rw [hiff, index_eq_some_iff, fieldNumbers, List.getElem?_map, Option.map_eq_some_iff]
  constructor
  · rintro ⟨field, hfield, hid⟩
    have hnumber := desc.numbers field (List.mem_of_getElem? hfield)
    have htag := tag.toNat_lt
    refine ⟨field, hfield, UInt32.toNat_inj.mp ?_⟩
    rw [int32, Int.bmod_def] at hid
    split_ifs at hid with hsmall
    · omega
    · omega
  · rintro ⟨field, hfield, rfl⟩
    have hnumber := desc.numbers field (List.mem_of_getElem? hfield)
    exact ⟨field, hfield, (int32_eq (by omega) (by omega)).symm⟩

end MessageDescriptor

/-! ## Messages -/

/-- What a number is stored as; signed ones and floating point numbers by their bits. -/
@[reducible] def ScalarType.Carrier : ScalarType → Type
  | .int32 | .sint32 | .sfixed32 | .uint32 | .fixed32 | .float | .enum => UInt32
  | .int64 | .sint64 | .sfixed64 | .uint64 | .fixed64 | .double => UInt64
  | .bool => Bool

/-- The value of a number in memory that is filled with zeros. -/
def ScalarType.zero : (type : ScalarType) → type.Carrier
  | .int32 | .sint32 | .sfixed32 | .uint32 | .fixed32 | .float | .enum => (0 : UInt32)
  | .int64 | .sint64 | .sfixed64 | .uint64 | .fixed64 | .double => (0 : UInt64)
  | .bool => false

/-- `ProtobufCMessageUnknownField`. -/
structure UnknownField where
  tag : UInt32
  wireType : UInt8
  data : List UInt8
deriving DecidableEq

mutual

/-- `ProtobufCMessage`, with the members that follow it in memory, one for each field. -/
inductive Message (δ : Type) where
  | mk (descriptor : δ) (slots : List (Slot δ)) (unknownFields : List UnknownField)

/-- What a message has for a field: one member, one with its flag `has_…`, or an array and
    the number of its elements. -/
inductive Slot (δ : Type) where
  | single (member : Member δ)
  | flagged (has : Bool) (member : Member δ)
  | repeated (members : List (Member δ))

/-- A member; a string and a message are pointers. -/
inductive Member (δ : Type) where
  | scalar (type : ScalarType) (value : type.Carrier)
  | string (value : Option CString)
  | bytes (value : List UInt8)
  | message (value : Option (Message δ))

end

namespace Message

/-- The descriptor of a message. -/
def descriptor : Message δ → δ
  | .mk descriptor _ _ => descriptor

/-- The slots of a message, in the order of its fields. -/
def slots : Message δ → List (Slot δ)
  | .mk _ slots _ => slots

/-- The records that no field takes. -/
def unknownFields : Message δ → List UnknownField
  | .mk _ _ unknownFields => unknownFields

end Message

/-! ## Properties of a message and of those in it -/

mutual

/-- A test holds for a message and all messages that it holds. -/
def Message.all (test : Message δ → Bool) : Message δ → Bool
  | .mk descriptor slots unknownFields =>
    test (.mk descriptor slots unknownFields) && slotsAll test slots

/-- The messages in the slots. -/
def slotsAll (test : Message δ → Bool) : List (Slot δ) → Bool
  | [] => true
  | slot :: slots => slotAll test slot && slotsAll test slots

/-- The test holds for all messages inside of a slot. -/
def slotAll (test : Message δ → Bool) : Slot δ → Bool
  | .single member => memberAll test member
  | .flagged _ member => memberAll test member
  | .repeated members => membersAll test members

/-- The test holds for all messages inside of the elements. -/
def membersAll (test : Message δ → Bool) : List (Member δ) → Bool
  | [] => true
  | member :: members => memberAll test member && membersAll test members

/-- The test holds for the message that a member points to, if it does. -/
def memberAll (test : Message δ → Bool) : Member δ → Bool
  | .message (some message) => message.all test
  | _ => true

end

/-- The slots are those of the fields, and a test holds for each of them. -/
def slotsHold (test : FieldDescriptor δ → Slot δ → Bool) :
    List (FieldDescriptor δ) → List (Slot δ) → Bool
  | [], [] => true
  | field :: fields, slot :: slots => test field slot && slotsHold test fields slots
  | _, _ => false

theorem slotsHold_and (p q : FieldDescriptor δ → Slot δ → Bool) :
    ∀ (fields : List (FieldDescriptor δ)) (slots : List (Slot δ)),
      slotsHold (fun field slot => p field slot && q field slot) fields slots =
        (slotsHold p fields slots && slotsHold q fields slots)
  | [], [] => rfl
  | [], _ :: _ => rfl
  | _ :: _, [] => rfl
  | field :: fields, slot :: slots => by
    rw [slotsHold, slotsHold, slotsHold, slotsHold_and p q fields slots]
    ac_rfl

section

variable (p q : Message δ → Bool)

mutual

theorem Message.all_and : ∀ message : Message δ,
    message.all (fun m => p m && q m) = (message.all p && message.all q)
  | .mk descriptor slots unknownFields => by
    rw [Message.all, Message.all, Message.all, slotsAll_and slots]
    ac_rfl

theorem slotsAll_and : ∀ slots : List (Slot δ),
    slotsAll (fun m => p m && q m) slots = (slotsAll p slots && slotsAll q slots)
  | [] => rfl
  | slot :: slots => by
    rw [slotsAll, slotsAll, slotsAll, slotAll_and slot, slotsAll_and slots]
    ac_rfl

theorem slotAll_and : ∀ slot : Slot δ,
    slotAll (fun m => p m && q m) slot = (slotAll p slot && slotAll q slot)
  | .single member => memberAll_and member
  | .flagged _ member => memberAll_and member
  | .repeated members => membersAll_and members

theorem membersAll_and : ∀ members : List (Member δ),
    membersAll (fun m => p m && q m) members = (membersAll p members && membersAll q members)
  | [] => rfl
  | member :: members => by
    rw [membersAll, membersAll, membersAll, memberAll_and member, membersAll_and members]
    ac_rfl

theorem memberAll_and : ∀ member : Member δ,
    memberAll (fun m => p m && q m) member = (memberAll p member && memberAll q member)
  | .message (some sub) => Message.all_and sub
  | .message none => rfl
  | .scalar _ _ => rfl
  | .string _ => rfl
  | .bytes _ => rfl

end

end

/-! ## Well-formed messages -/

section

variable [DecidableEq δ]

/-- The member is of a type. -/
def Member.hasType : Member δ → FieldType δ → Bool
  | .scalar type _, .scalar type' => decide (type = type')
  | .string _, .string => true
  | .bytes _, .bytes => true
  | .message none, .message _ => true
  | .message (some sub), .message desc => decide (sub.descriptor = desc)
  | _, _ => false

/-- An optional field of this type has a flag: its `quantifier_offset` is not zero. -/
def FieldType.hasFlag : FieldType δ → Bool
  | .scalar _ | .bytes => true
  | .string | .message _ => false

/-- The slot is what the structure of the message has for the field. -/
def Slot.fits (field : FieldDescriptor δ) : Slot δ → Bool
  | .single member =>
    (field.label = .required || (field.label = .optional && !field.type.hasFlag)) &&
      member.hasType field.type
  | .flagged _ member =>
    field.label = .optional && field.type.hasFlag && member.hasType field.type
  | .repeated members => field.label = .repeated && members.all (·.hasType field.type)

/-- The message and those in it are laid out as their descriptors say. -/
def Message.typed (descriptors : δ → MessageDescriptor δ) (message : Message δ) : Bool :=
  message.all fun m => slotsHold Slot.fits (descriptors m.descriptor).fields m.slots

/-- The pointer is not NULL. -/
def Member.present : Member δ → Bool
  | .string none | .message none => false
  | _ => true

/-- What `protobuf_c_message_check` asks for a field. -/
def Slot.checked (field : FieldDescriptor δ) : Slot δ → Bool
  | .repeated members => members.all Member.present
  | .single member => field.label ≠ .required || member.present
  | .flagged _ _ => true

/-- `protobuf_c_message_check` (lines 3419–3498) of a message that is laid out; it goes into
    all messages that are there. -/
def messageCheck (descriptors : δ → MessageDescriptor δ) (message : Message δ) : Bool :=
  message.all fun m => slotsHold Slot.checked (descriptors m.descriptor).fields m.slots

/-- The slot is what the field needs, and can be packed. -/
def Slot.valid (field : FieldDescriptor δ) (slot : Slot δ) : Bool :=
  slot.fits field && slot.checked field

/-- The slots of a message are what its fields need, and can be packed. -/
def Message.slotsValid (descriptors : δ → MessageDescriptor δ) (message : Message δ) : Bool :=
  slotsHold Slot.valid (descriptors message.descriptor).fields message.slots

/-- The message and all messages inside of it have slots as their descriptors say. -/
def Message.valid (descriptors : δ → MessageDescriptor δ) (message : Message δ) : Bool :=
  message.all (Message.slotsValid descriptors)

theorem Message.valid_eq (descriptors : δ → MessageDescriptor δ) (message : Message δ) :
    message.valid descriptors =
      (message.typed descriptors && messageCheck descriptors message) := by
  have hboth : Message.slotsValid descriptors =
      fun m => slotsHold Slot.fits (descriptors m.descriptor).fields m.slots &&
        slotsHold Slot.checked (descriptors m.descriptor).fields m.slots :=
    funext fun _ => slotsHold_and Slot.fits Slot.checked _ _
  rw [Message.valid, hboth, Message.all_and]
  rfl

end

end Cebus.ProtobufC
