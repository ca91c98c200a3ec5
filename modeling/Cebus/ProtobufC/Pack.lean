import Cebus.Lib.Block
import Cebus.ProtobufC.Message
import Cebus.ProtobufC.Wire

/-!
# Packing (`protobuf-c.c`, `message_serializer.c`)

The size of a message is computed first, and then the message is written into a block of
that size. What a function writes goes to a place in the block, and it returns how many
bytes it has written.

A member stands for the type of its field, for it has that type.
-/

namespace Cebus.ProtobufC

variable {δ : Type}

/-! ## Numbers -/

namespace WireType

/-- `PROTOBUF_C_WIRE_TYPE_VARINT`. -/
def varint : UInt8 := 0

/-- `PROTOBUF_C_WIRE_TYPE_64BIT`. -/
def bits64 : UInt8 := 1

/-- `PROTOBUF_C_WIRE_TYPE_LENGTH_PREFIXED`. -/
def lengthPrefixed : UInt8 := 2

/-- `PROTOBUF_C_WIRE_TYPE_32BIT`. -/
def bits32 : UInt8 := 5

end WireType

namespace ScalarType

/-- The wire type of a number (`required_field_pack`, lines 1095–1144). -/
def wireType : ScalarType → UInt8
  | .sint32 | .enum | .int32 | .uint32 | .sint64 | .int64 | .uint64 | .bool => WireType.varint
  | .sfixed32 | .fixed32 | .float => WireType.bits32
  | .sfixed64 | .fixed64 | .double => WireType.bits64

/-- The bytes of a number (`required_field_pack`, lines 1095–1144). -/
def pack : (type : ScalarType) → type.Carrier → List UInt8
  | .sint32, v => sint32Pack v
  | .enum, v | .int32, v => int32Pack v
  | .uint32, v => uint32Pack v
  | .sint64, v => sint64Pack v
  | .int64, v | .uint64, v => uint64Pack v
  | .sfixed32, v | .fixed32, v | .float, v => fixed32Pack v
  | .sfixed64, v | .fixed64, v | .double, v => fixed64Pack v
  | .bool, v => booleanPack v

/-- How many bytes a number takes (`required_field_get_packed_size`, lines 420–468). -/
def packedSize : (type : ScalarType) → type.Carrier → ℕ
  | .sint32, v => sint32Size v
  | .enum, v | .int32, v => int32Size v
  | .uint32, v => uint32Size v
  | .sint64, v => sint64Size v
  | .int64, v | .uint64, v => uint64Size v
  | .sfixed32, _ | .fixed32, _ | .float, _ => 4
  | .sfixed64, _ | .fixed64, _ | .double, _ => 8
  | .bool, _ => 1

end ScalarType

/-- `get_type_min_size` (lines 1328–1344). -/
def FieldType.minSize : FieldType δ → ℕ
  | .scalar .sfixed32 | .scalar .fixed32 | .scalar .float => 4
  | .scalar .sfixed64 | .scalar .fixed64 | .scalar .double => 8
  | _ => 1

/-! ## Sizes -/

/-- `uint32_size` of a `size_t`. -/
def lengthSize (len : ℕ) : ℕ := uint32Size (UInt32.ofNat len)

/-- `uint32_pack` of a `size_t`. -/
def lengthPack (len : ℕ) : List UInt8 := uint32Pack (UInt32.ofNat len)

/-- `unknown_field_get_packed_size` (lines 704–708). -/
def unknownFieldGetPackedSize (field : UnknownField) : ℕ :=
  getTagSize field.tag + field.data.length

section

variable (descriptors : δ → MessageDescriptor δ)

mutual

/-- `protobuf_c_message_get_packed_size` (lines 715–761). -/
def messageGetPackedSize : Message δ → Except Failure ℕ
  | .mk descriptor slots unknownFields => do
    let rv ← slotsGetPackedSize (descriptors descriptor).fields slots
    .ok (rv + (unknownFields.map unknownFieldGetPackedSize).sum)

/-- The loop over the fields (lines 721–757). -/
def slotsGetPackedSize : List (FieldDescriptor δ) → List (Slot δ) → Except Failure ℕ
  | field :: fields, slot :: slots => do
    let size ← slotGetPackedSize field slot
    let rv ← slotsGetPackedSize fields slots
    .ok (size + rv)
  | _, _ => .ok 0

/-- One turn of it: `optional_field_get_packed_size` (lines 516–532) and
    `repeated_field_get_packed_size` (lines 617–692). -/
def slotGetPackedSize (field : FieldDescriptor δ) : Slot δ → Except Failure ℕ
  | .single member =>
    if field.label = .required || member.present then do
      let size ← memberGetPackedSize member
      .ok (getTagSize field.id + size)
    else .ok 0
  | .flagged has member =>
    if has then do
      let size ← memberGetPackedSize member
      .ok (getTagSize field.id + size)
    else .ok 0
  | .repeated members =>
    if members.isEmpty then .ok 0
    else do
      let rv ← elementsGetPackedSize members
      if field.packed then .ok (getTagSize field.id + lengthSize rv + rv)
      else .ok (getTagSize field.id * members.length + rv)

/-- The loops over the elements of an array; none of them is NULL. -/
def elementsGetPackedSize : List (Member δ) → Except Failure ℕ
  | [] => .ok 0
  | member :: members => do
    let size ← if member.present then memberGetPackedSize member else .error .wild
    let rv ← elementsGetPackedSize members
    .ok (size + rv)

/-- `required_field_get_packed_size` (lines 420–468), without the tag. -/
def memberGetPackedSize : Member δ → Except Failure ℕ
  | .scalar type value => .ok (type.packedSize value)
  | .string none => .ok (lengthSize 0 + 0)
  | .string (some str) => .ok (lengthSize str.bytes.length + str.bytes.length)
  | .bytes data => .ok (lengthSize data.length + data.length)
  | .message none => .ok (lengthSize 0 + 0)
  | .message (some sub) => do
    let subrv ← messageGetPackedSize sub
    .ok (lengthSize subrv + subrv)

end

end

/-! ## Writing into memory -/

/-- A function that writes to a place, and returns the memory and how many bytes it has
    written. -/
abbrev Packer := Block UInt8 → ℕ → Except Failure (Block UInt8 × ℕ)

namespace Packer

/-- Nothing is written. -/
def skip : Packer := fun out _ => .ok (out, 0)

/-- Bytes are written. -/
def put (bytes : List UInt8) : Packer := fun out start =>
  match out.store start bytes with
  | some out => .ok (out, bytes.length)
  | none => .error .wild

/-- One function writes behind the other: `rv += …(out + rv)`. -/
def seq (first next : Packer) : Packer := fun out start => do
  let (out, n) ← first out start
  let (out, m) ← next out (start + n)
  .ok (out, n + m)

end Packer

/-- `memmove`. -/
def memmove (out : Block UInt8) (dest start n : ℕ) : Except Failure (Block UInt8) :=
  match (out.read start n).bind (out.write dest) with
  | some out => .ok out
  | none => .error .wild

/-- `out[0] |= wire_type`. -/
def orWireType (wireType : UInt8) (out : Block UInt8) (start : ℕ) :
    Except Failure (Block UInt8) :=
  match (out.load start 1).bind fun bytes => out.store start (setWireType wireType bytes) with
  | some out => .ok out
  | none => .error .wild

/-- A tag, with a wire type (`tag_pack`, lines 1074–1081), and what follows it. -/
def withTag (id : UInt32) (wireType : UInt8) (next : Packer) : Packer := fun out start => do
  let (out, rv) ← Packer.put (tagPack id) out start
  let out ← orWireType wireType out start
  let (out, n) ← next out (start + rv)
  .ok (out, rv + n)

/-! ## Fields -/

/-- `string_pack` (lines 1000–1012). -/
def stringPack : Option CString → Packer
  | none => Packer.put [0]
  | some str => (Packer.put (lengthPack str.bytes.length)).seq (Packer.put str.bytes)

/-- `binary_data_pack` (lines 1025–1032). -/
def binaryDataPack (data : List UInt8) : Packer :=
  (Packer.put (lengthPack data.length)).seq (Packer.put data)

/-- `prefixed_message_pack` (lines 1045–1058) of a message that is there: it is written one
    byte behind the place, and moved when its length takes more than one byte. -/
def prefixedMessagePack (message : Packer) : Packer := fun out start => do
  let (out, rv) ← message out (start + 1)
  let rvPackedSize := lengthSize rv
  let out ← if rvPackedSize ≠ 1 then memmove out (start + rvPackedSize) (start + 1) rv else .ok out
  let (out, n) ← Packer.put (lengthPack rv) out start
  .ok (out, n + rv)

/-- An element of a packed array. -/
def elementPack : Member δ → Packer
  | .scalar type value => Packer.put (type.pack value)
  | _ => fun _ _ => .error .abort

/-- The loops over the elements of a packed array (lines 1387–1440). -/
def elementsPack : List (Member δ) → Packer
  | [] => Packer.skip
  | member :: members => (elementPack member).seq (elementsPack members)

/-- `repeated_field_pack` (lines 1368–1451), when the array is packed: it is written behind
    as many bytes as its length takes at least, and moved when it takes one more. -/
def packedFieldPack (field : FieldDescriptor δ) (members : List (Member δ)) : Packer :=
  fun out start =>
    if members.isEmpty then .ok (out, 0)
    else do
      let (out, lenStart) ← Packer.put (tagPack field.id) out start
      let out ← orWireType WireType.lengthPrefixed out start
      let lengthSizeMin := lengthSize (field.type.minSize * members.length)
      let headerLen := lenStart + lengthSizeMin
      let (out, payload) ← elementsPack members out (start + headerLen)
      let payloadLen := UInt32.ofNat payload
      let actualLengthSize := uint32Size payloadLen
      let (out, headerLen) ←
        if lengthSizeMin ≠ actualLengthSize then
          if actualLengthSize = lengthSizeMin + 1 then do
            let out ← memmove out (start + headerLen + 1) (start + headerLen) payloadLen.toNat
            .ok (out, headerLen + 1)
          else .error .abort
        else .ok (out, headerLen)
      let (out, _) ← Packer.put (uint32Pack payloadLen) out (start + lenStart)
      .ok (out, headerLen + payloadLen.toNat)

/-- `unknown_field_pack` (lines 1466–1473). -/
def unknownFieldPack (field : UnknownField) : Packer :=
  withTag field.tag field.wireType (Packer.put field.data)

/-- The loop over the unknown fields (lines 1526–1527). -/
def unknownFieldsPack : List UnknownField → Packer
  | [] => Packer.skip
  | field :: fields => (unknownFieldPack field).seq (unknownFieldsPack fields)

/-! ## Messages -/

section

variable (descriptors : δ → MessageDescriptor δ)

mutual

/-- `protobuf_c_message_pack` (lines 1477–1529). -/
def messagePack : Message δ → Packer
  | .mk descriptor slots unknownFields =>
    (slotsPack (descriptors descriptor).fields slots).seq (unknownFieldsPack unknownFields)

/-- The loop over the fields (lines 1484–1525). -/
def slotsPack : List (FieldDescriptor δ) → List (Slot δ) → Packer
  | field :: fields, slot :: slots => (slotPack field slot).seq (slotsPack fields slots)
  | _, _ => Packer.skip

/-- One turn of it: `optional_field_pack` (lines 1193–1209) and `repeated_field_pack`. -/
def slotPack (field : FieldDescriptor δ) : Slot δ → Packer
  | .single member =>
    if field.label = .required || member.present then requiredFieldPack field member
    else Packer.skip
  | .flagged has member => if has then requiredFieldPack field member else Packer.skip
  | .repeated members =>
    if field.packed then packedFieldPack field members else requiredFieldsPack field members

/-- `repeated_field_pack` (lines 1455–1462), when the array is not packed. -/
def requiredFieldsPack (field : FieldDescriptor δ) : List (Member δ) → Packer
  | [] => Packer.skip
  | member :: members => (requiredFieldPack field member).seq (requiredFieldsPack field members)

/-- `required_field_pack` (lines 1095–1144). -/
def requiredFieldPack (field : FieldDescriptor δ) : Member δ → Packer
  | .scalar type value => withTag field.id type.wireType (Packer.put (type.pack value))
  | .string str => withTag field.id WireType.lengthPrefixed (stringPack str)
  | .bytes data => withTag field.id WireType.lengthPrefixed (binaryDataPack data)
  | .message none => withTag field.id WireType.lengthPrefixed (Packer.put [0])
  | .message (some sub) =>
    withTag field.id WireType.lengthPrefixed (prefixedMessagePack (messagePack sub))

end

/-- `cb_pack_message` (`message_serializer.c`, lines 5–15): the buffer and its size. -/
def packMessage (message : Message δ) : Except Failure (Block UInt8 × ℕ) := do
  let packedSize ← messageGetPackedSize descriptors message
  let (buf, _) ← messagePack descriptors message (Block.alloc packedSize) 0
  .ok (buf, packedSize)

end

end Cebus.ProtobufC
