import Cebus.ProtobufC.Pack
import Mathlib.Data.List.TakeWhile

/-!
# Unpacking (`protobuf-c.c`)

The bytes are scanned first: each member is noted with its field and its data, and the
elements of the repeated fields are counted. Then the arrays are allocated, and the members
are parsed in the order in which they were noted.

A failure `invalid` is an answer NULL. Memory for a message, an array or a slab is always
there.
-/

namespace Cebus.ProtobufC

variable {δ : Type}

/-! ## Scanning bytes -/

/-- The index of the first of at most `max` bytes that no other one follows. -/
def terminator (max : ℕ) (data : List UInt8) : Option ℕ :=
  (data.take max).findIdx? fun b => b &&& 0x80 = 0

/-- The loop of `parse_tag_and_wiretype` (lines 2089–2098). -/
def tagLoop (wireType : UInt8) (tag shift : UInt32) (rv : ℕ) :
    List UInt8 → Option (UInt32 × UInt8 × ℕ)
  | [] => none
  | b :: bs =>
    if b &&& 0x80 ≠ 0 then
      tagLoop wireType (tag ||| ((b &&& 0x7f).toUInt32 <<< shift)) (shift + 7) (rv + 1) bs
    else some (tag ||| (b.toUInt32 <<< shift), wireType, rv + 1)

/-- `parse_tag_and_wiretype` (lines 2068–2100): the tag, the wire type and how many bytes
    they take; `none` is an answer of 0. -/
def parseTagAndWiretype : List UInt8 → Option (UInt32 × UInt8 × ℕ)
  | [] => none
  | b :: bs =>
    let tag := (b &&& 0x7f).toUInt32 >>> 3
    if b &&& 0xf8 = 0 then none
    else if b &&& 0x80 = 0 then some (tag, b &&& 7, 1)
    else tagLoop (b &&& 7) tag 4 1 (bs.take 4)

/-- `scan_length_prefixed_data` (lines 2115–2151): how many bytes there are, and how many of
    them hold the length. -/
def scanLengthPrefixedData (data : List UInt8) : Option (ℕ × ℕ) :=
  match terminator 5 data with
  | none => none
  | some i =>
    let val := (orBytes64 0 (data.take (i + 1))).toNat
    let hdrLen := i + 1
    if 2 ^ 31 - 1 < val then none
    else if data.length < hdrLen + val then none
    else some (hdrLen + val, hdrLen)

/-- The length of the data of a wire type, and of its prefix
    (`protobuf_c_message_unpack`, lines 3138–3185). -/
def scanData (wireType : UInt8) (data : List UInt8) : Option (ℕ × ℕ) :=
  if wireType = WireType.varint then (terminator 10 data).map fun i => (i + 1, 0)
  else if wireType = WireType.bits64 then if data.length < 8 then none else some (8, 0)
  else if wireType = WireType.lengthPrefixed then scanLengthPrefixedData data
  else if wireType = WireType.bits32 then if data.length < 4 then none else some (4, 0)
  else none

/-- `max_b128_numbers` (lines 2153–2161). -/
def maxB128Numbers (data : List UInt8) : ℕ := data.countP fun b => b &&& 0x80 = 0

/-- `count_packed_elements` (lines 2361–2403). -/
def countPackedElements (type : FieldType δ) (data : List UInt8) : Option ℕ :=
  match type with
  | .scalar .sfixed32 | .scalar .fixed32 | .scalar .float =>
    if data.length % 4 ≠ 0 then none else some (data.length / 4)
  | .scalar .sfixed64 | .scalar .fixed64 | .scalar .double =>
    if data.length % 8 ≠ 0 then none else some (data.length / 8)
  | .scalar .bool => some data.length
  | .scalar _ => some (maxB128Numbers data)
  | _ => none

/-! ## Scanning members -/

/-- `ScannedMember` (lines 2106–2113), with the `len` bytes at `data`; the field is given by
    its index. -/
structure ScannedMember where
  tag : UInt32
  wireType : UInt8
  lengthPrefixLen : ℕ
  field : Option ℕ
  data : List UInt8
deriving DecidableEq

/-- What `protobuf_c_message_unpack` knows while it scans: its variables, and the counts of
    the repeated fields, which are in the message. -/
structure ScanState where
  lastFieldIndex : ℕ
  requiredFieldsBitmap : List Bool
  counts : List ℕ
  nUnknown : ℕ
  whichSlab : ℕ
  inSlabIndex : ℕ
  members : List ScannedMember

/-- The state before the loop; the bitmap has eight bits for each of its bytes. -/
def ScanState.init (desc : MessageDescriptor δ) : ScanState where
  lastFieldIndex := 0
  requiredFieldsBitmap := List.replicate ((desc.fields.length + 7) / 8 * 8) false
  counts := desc.fields.map fun _ => 0
  nUnknown := 0
  whichSlab := 0
  inSlabIndex := 0
  members := []

/-- The data of a field is an array of numbers. -/
def FieldDescriptor.isPackedData (field : FieldDescriptor δ) (wireType : UInt8) : Bool :=
  wireType = WireType.lengthPrefixed && (field.packed || field.type.isPackable)

/-- The field with a tag (lines 3109–3125); it is looked up when it is not the last one. -/
def ScanState.lookupField (desc : MessageDescriptor δ) (st : ScanState) (tag : UInt32) :
    Except Failure (Option ℕ × ScanState) :=
  match desc.fields[st.lastFieldIndex]? with
  | some last => if last.id ≠ tag then lookup else .ok (some st.lastFieldIndex, st)
  | none => lookup
where
  lookup : Except Failure (Option ℕ × ScanState) := do
    match ← desc.lookup tag with
    | none => .ok (none, { st with nUnknown := st.nUnknown + 1 })
    | some i => .ok (some i, { st with lastFieldIndex := i })

/-- `REQUIRED_FIELD_BITMAP_SET` for a required field (lines 3127–3128). -/
def ScanState.setRequired (desc : MessageDescriptor δ) (st : ScanState) (field : Option ℕ) :
    Except Failure ScanState :=
  match field.bind (desc.fields[·]?) with
  | none => .ok st
  | some descriptor =>
    if descriptor.label = .required then
      if st.lastFieldIndex < st.requiredFieldsBitmap.length then
        .ok { st with
          requiredFieldsBitmap := st.requiredFieldsBitmap.set st.lastFieldIndex true }
      else .error .wild
    else .ok st

/-- A member goes into a slab (lines 3187–3204). A slab has twice as many places as the one
    before it, and the first one has 16; there are 23 of them. -/
def ScanState.addMember (st : ScanState) (tmp : ScannedMember) : Except Failure ScanState :=
  if st.inSlabIndex = 2 ^ (st.whichSlab + 4) then
    if st.whichSlab = 22 then .error .invalid
    else .ok { st with
      whichSlab := st.whichSlab + 1, inSlabIndex := 1, members := st.members ++ [tmp] }
  else .ok { st with inSlabIndex := st.inSlabIndex + 1, members := st.members ++ [tmp] }

/-- The elements of a repeated field are counted (lines 3206–3228). -/
def ScanState.countElements (desc : MessageDescriptor δ) (st : ScanState) (tmp : ScannedMember) :
    Except Failure ScanState :=
  match tmp.field with
  | none => .ok st
  | some i =>
    match desc.fields[i]? with
    | none => .error .wild
    | some field =>
      if field.label = .repeated then
        if field.isPackedData tmp.wireType then
          match countPackedElements field.type (tmp.data.drop tmp.lengthPrefixLen) with
          | none => .error .invalid
          | some count => .ok { st with counts := st.counts.modify i (· + count) }
        else .ok { st with counts := st.counts.modify i (· + 1) }
      else .ok st

/-- One turn of the first loop (lines 3093–3232). -/
def scanStep (desc : MessageDescriptor δ) (st : ScanState) (rem : List UInt8) :
    Except Failure (ScanState × List UInt8) :=
  match parseTagAndWiretype rem with
  | none => .error .invalid
  | some (tag, wireType, used) => do
    let (field, st) ← st.lookupField desc tag
    let st ← st.setRequired desc field
    let rem := rem.drop used
    match scanData wireType rem with
    | none => .error .invalid
    | some (len, lengthPrefixLen) => do
      let tmp : ScannedMember := ⟨tag, wireType, lengthPrefixLen, field, rem.take len⟩
      let st ← st.addMember tmp
      let st ← st.countElements desc tmp
      .ok (st, rem.drop len)

/-- The first loop. -/
def scanMembers (desc : MessageDescriptor δ) :
    ℕ → ScanState → List UInt8 → Except Failure ScanState
  | _, st, [] => .ok st
  | 0, _, _ => .error .fuel
  | fuel + 1, st, rem => do
    let (st, rem) ← scanStep desc st rem
    scanMembers desc fuel st rem

/-! ## Messages without fields that are set -/

/-- A member that is filled with zeros. -/
def FieldType.zero : FieldType δ → Member δ
  | .scalar type => .scalar type type.zero
  | .string => .string none
  | .bytes => .bytes []
  | .message _ => .message none

/-- What the generated `…__init` leaves for a field. -/
def FieldDescriptor.init (field : FieldDescriptor δ) : Slot δ :=
  match field.label with
  | .required => .single field.type.zero
  | .optional => if field.type.hasFlag then .flagged false field.type.zero
    else .single field.type.zero
  | .repeated => .repeated []

/-- The array of a repeated field is allocated, with an `unsigned` for the number of its
    elements, and a required field must have been seen (lines 3234–3272). -/
def prepareField (st : ScanState) (i : ℕ) (field : FieldDescriptor δ) : Except Failure ℕ :=
  match field.label with
  | .repeated =>
    match st.counts[i]? with
    | some n => .ok (UInt32.ofNat n).toNat
    | none => .error .wild
  | .required =>
    match st.requiredFieldsBitmap[i]? with
    | some seen => if seen then .ok 0 else .error .invalid
    | none => .error .wild
  | .optional => .ok 0

/-! ## Merging -/

/-- A member, and the one of an earlier message (`merge_messages`, lines 2272–2347), which
    is taken when this one is not there. -/
def Member.orEarlier (earlier latter : Member δ) : Member δ :=
  match earlier, latter with
  | .string (some _), .string none => earlier
  | .message (some _), .message none => earlier
  | _, _ => latter

section

variable (descriptors : δ → MessageDescriptor δ)

mutual

/-- `merge_messages` (lines 2179–2351): what is in the latter message, with what it takes
    over from the earlier one. -/
def mergeMessages : Message δ → Message δ → Message δ
  | .mk _ earlier _, .mk descriptor latter unknownFields =>
    .mk descriptor (mergeSlots (descriptors descriptor).fields earlier latter) unknownFields

/-- The loop over the fields. -/
def mergeSlots : List (FieldDescriptor δ) → List (Slot δ) → List (Slot δ) → List (Slot δ)
  | field :: fields, e :: earlier, l :: latter =>
    mergeSlot field e l :: mergeSlots fields earlier latter
  | _, _, latter => latter

/-- One turn of it. Required fields are not merged; a number is taken over with its flag, and
    so are bytes, when there are some in the earlier message only. -/
def mergeSlot (field : FieldDescriptor δ) : Slot δ → Slot δ → Slot δ
  | .repeated earlier, .repeated latter => .repeated (earlier ++ latter)
  | .single earlier, .single latter =>
    if field.label = .required then .single latter else .single (mergeMember earlier latter)
  | .flagged has (.bytes earlier), .flagged has' (.bytes latter) =>
    if earlier ≠ [] ∧ latter = [] then .flagged has (.bytes earlier)
    else .flagged has' (.bytes latter)
  | .flagged has earlier, .flagged has' latter =>
    if has = true ∧ has' = false then .flagged has earlier else .flagged has' latter
  | _, latter => latter

/-- Two messages are merged; of other members the later one is taken if it is there. -/
def mergeMember : Member δ → Member δ → Member δ
  | .message (some earlier), .message (some latter) =>
    .message (some (mergeMessages earlier latter))
  | earlier, latter => earlier.orEarlier latter

end

end

/-! ## Parsing -/

/-- Bytes that are copied into a string and terminated (lines 2568–2572): the string ends at
    the first zero. -/
def copiedString (data : List UInt8) : CString where
  bytes := data.takeWhile (· ≠ 0)
  noNul := fun h => by simpa using List.mem_takeWhile_imp h

namespace ScalarType

/-- A number is read (`parse_required_member`, lines 2511–2555). -/
def parseValue (data : List UInt8) : (type : ScalarType) → type.Carrier
  | .enum | .int32 | .uint32 => parseUint32 data
  | .sint32 => unzigzag32 (parseUint32 data)
  | .sfixed32 | .fixed32 | .float => parseFixedUint32 data
  | .int64 | .uint64 => parseUint64 data
  | .sint64 => unzigzag64 (parseUint64 data)
  | .sfixed64 | .fixed64 | .double => parseFixedUint64 data
  | .bool => parseBoolean data

/-- The wire type that is asked for; there is none for a truth value. -/
def accepts (type : ScalarType) (wireType : UInt8) : Bool :=
  type = .bool || wireType = type.wireType

/-- The size of the elements that are copied from a packed array as they are. -/
def fixedSize : ScalarType → Option ℕ
  | .sfixed32 | .fixed32 | .float => some 4
  | .sfixed64 | .fixed64 | .double => some 8
  | _ => none

end ScalarType

section

variable (descriptors : δ → MessageDescriptor δ)
variable (unpack : δ → List UInt8 → Except Failure (Message δ))

/-- `parse_required_member` (lines 2501–2633): the member that is stored, where `previous` is
    what is there before, if it may be cleared. -/
def parseRequiredMember (type : FieldType δ) (scanned : ScannedMember)
    (previous : Option (Member δ)) : Except Failure (Member δ) :=
  let payload := scanned.data.drop scanned.lengthPrefixLen
  match type with
  | .scalar type =>
    if type.accepts scanned.wireType then .ok (.scalar type (type.parseValue scanned.data))
    else .error .invalid
  | .string =>
    if scanned.wireType ≠ WireType.lengthPrefixed then .error .invalid
    else .ok (.string (some (copiedString payload)))
  | .bytes =>
    if scanned.wireType ≠ WireType.lengthPrefixed then .error .invalid else .ok (.bytes payload)
  | .message descriptor =>
    if scanned.wireType ≠ WireType.lengthPrefixed then .error .invalid
    else do
      let subm ← unpack descriptor payload
      match previous with
      | some (.message (some earlier)) =>
        .ok (.message (some (mergeMessages descriptors earlier subm)))
      | _ => .ok (.message (some subm))

/-- An element is stored behind the others in an array with so many places. -/
def storeElement (capacity : ℕ) (members : List (Member δ)) (member : Member δ) :
    Except Failure (List (Member δ)) :=
  if members.length < capacity then .ok (members ++ [member]) else .error .wild

/-- The loops of `parse_packed_repeated_member` (lines 2789–2863). -/
def parseVarints (type : ScalarType) (capacity : ℕ) :
    ℕ → List (Member δ) → List UInt8 → Except Failure (List (Member δ))
  | _, members, [] => .ok members
  | 0, _, _ => .error .fuel
  | fuel + 1, members, rem =>
    match terminator 10 rem with
    | none => .error .invalid
    | some i => do
      let members ←
        storeElement capacity members (.scalar type (type.parseValue (rem.take (i + 1))))
      parseVarints type capacity fuel members (rem.drop (i + 1))

/-- `parse_packed_repeated_member` (lines 2746–2876). -/
def parsePackedRepeatedMember (type : FieldType δ) (capacity : ℕ) (members : List (Member δ))
    (data : List UInt8) : Except Failure (List (Member δ)) :=
  match type with
  | .scalar type =>
    match type.fixedSize with
    | some size =>
      let count := data.length / size
      if members.length + count ≤ capacity then
        .ok (members ++ (List.range count).map fun i =>
          .scalar type (type.parseValue (data.drop (i * size))))
      else .error .wild
    | none => parseVarints type capacity data.length members data
  | _ => .error .abort

/-- A member of a known field (`parse_member`, lines 2908–2935). -/
def parseField (field : FieldDescriptor δ) (capacity : ℕ) (scanned : ScannedMember) :
    Slot δ → Except Failure (Slot δ)
  | .single member => do
    let member ← parseRequiredMember descriptors unpack field.type scanned (some member)
    .ok (.single member)
  | .flagged _ member => do
    let member ← parseRequiredMember descriptors unpack field.type scanned (some member)
    .ok (.flagged true member)
  | .repeated members =>
    if field.isPackedData scanned.wireType then do
      let members ← parsePackedRepeatedMember field.type capacity members
        (scanned.data.drop scanned.lengthPrefixLen)
      .ok (.repeated members)
    else do
      let member ← parseRequiredMember descriptors unpack field.type scanned none
      let members ← storeElement capacity members member
      .ok (.repeated members)

/-- The message while it is parsed: its slots, with the places of their arrays, and its
    unknown fields. -/
structure Parsing (δ : Type) where
  slots : List (Slot δ)
  capacities : List ℕ
  unknownFields : List UnknownField

/-- `parse_member` (lines 2887–2938); there are `nUnknown` places for unknown fields. -/
def parseMember (desc : MessageDescriptor δ) (nUnknown : ℕ) (rv : Parsing δ)
    (scanned : ScannedMember) : Except Failure (Parsing δ) :=
  match scanned.field with
  | none =>
    if rv.unknownFields.length < nUnknown then
      .ok { rv with
        unknownFields := rv.unknownFields ++ [⟨scanned.tag, scanned.wireType, scanned.data⟩] }
    else .error .wild
  | some i =>
    match desc.fields[i]?, rv.capacities[i]?, rv.slots[i]? with
    | some field, some capacity, some slot => do
      let slot ← parseField descriptors unpack field capacity scanned slot
      .ok { rv with slots := rv.slots.set i slot }
    | _, _, _ => .error .wild

/-- `protobuf_c_message_unpack` (lines 3030–3321), given how messages in the message are
    unpacked. -/
def unpackFields (descriptor : δ) (data : List UInt8) : Except Failure (Message δ) := do
  let desc := descriptors descriptor
  let st ← scanMembers desc data.length (ScanState.init desc) data
  let capacities ← desc.fields.zipIdx.mapM fun (field, i) => prepareField st i field
  let rv ← st.members.foldlM (parseMember descriptors unpack desc st.nUnknown)
    ⟨desc.fields.map FieldDescriptor.init, capacities, []⟩
  .ok (.mk descriptor rv.slots rv.unknownFields)

end

section

variable (descriptors : δ → MessageDescriptor δ)

/-- Messages that are nested `fuel` deep at most. -/
def messageUnpackFuel : ℕ → δ → List UInt8 → Except Failure (Message δ)
  | 0, _, _ => .error .fuel
  | fuel + 1, descriptor, data => unpackFields descriptors (messageUnpackFuel fuel) descriptor data

/-- `protobuf_c_message_unpack`. A message is longer than those in it. -/
def messageUnpack (descriptor : δ) (data : List UInt8) : Except Failure (Message δ) :=
  messageUnpackFuel descriptors (data.length + 1) descriptor data

end

end Cebus.ProtobufC
