import Cebus.Lib.Decimal
import Cebus.Lib.LittleEndian
import Cebus.Subscription.BindingKey
import Mathlib.Tactic.FinCases
import Mathlib.Tactic.NormNum
import Mathlib.Tactic.SplitIfs

/-!
# The binding key of a message (`binding_key.c`)

`cb_binding_key_from_message` reads the routing fields of a message through the
offsets that the protobuf compiler has generated, on a 64-bit little-endian
target. What `printf` makes of a floating-point number is a parameter.

* `addRoutingField_adds`: what the builder gets for one routing field.
* `rendersExactly_iff`: the key renders the message exactly when no signed
  64-bit value exceeds 32 bits, no `bool` is negative, and no optional string
  disagrees with the address of the message's descriptor, whose low half is read
  in the place of its flag.
-/

namespace Cebus

/-! ## Descriptors and messages -/

/-- `ProtobufCLabel` (`protobuf-c.h`). -/
inductive ProtobufCLabel where
  | required | optional | repeated | none
deriving DecidableEq

/-- `ProtobufCType` (`protobuf-c.h`, lines 309–327). -/
inductive ProtobufCType where
  | int32 | sint32 | sfixed32 | int64 | sint64 | sfixed64 | uint32 | fixed32 | uint64
  | fixed64 | float | double | bool | enum | string | bytes | message
deriving DecidableEq

/-- `ProtobufCFieldDescriptor` (`protobuf-c.h`). -/
structure ProtobufCFieldDescriptor where
  label : ProtobufCLabel
  type : ProtobufCType
  quantifierOffset : ℕ
  offset : ℕ
deriving DecidableEq

/-- `ProtobufCebusMessageDescriptor` (`protobuf-cebus.h`): the field descriptors of
    the array `routing_fields`, which may be `NULL`. -/
structure ProtobufCebusMessageDescriptor where
  routingFields : Option (List ProtobufCFieldDescriptor)
deriving DecidableEq

/-- A message in memory: its bytes, and the string at each address. Its first
    member is the address of its descriptor. -/
structure ProtobufCMessage where
  bytes : List UInt8
  strings : ℕ → CString

/-- What stops the program. -/
inductive MessageKeyFault where
  | nullString | outOfBounds | unsupportedType
deriving DecidableEq

namespace ProtobufCMessage

/-- The number in the `width` bytes at an offset. -/
def loaded (message : ProtobufCMessage) (offset width : ℕ) : ℕ :=
  LittleEndian.ofBytes ((message.bytes.drop offset).take width)

/-- Reading `width` bytes at an offset. -/
def load (message : ProtobufCMessage) (offset width : ℕ) : Except MessageKeyFault ℕ :=
  if offset + width ≤ message.bytes.length then .ok (message.loaded offset width)
  else .error .outOfBounds

end ProtobufCMessage

/-- The value of a signed integer of `width` bytes. -/
def signed (width n : ℕ) : ℤ := (n : ℤ).bmod (256 ^ width)

/-- `cebus_bool_from_int` (`cebus_bool.h`). -/
def cebusBoolFromInt (value : ℤ) : Bool := decide (0 < value)

/-- The decimals of a number. -/
def decimal (z : ℤ) : CString := CString.ofChars (Decimal.ofInt z)

/-- What `printf` prints for `%f` and `%lf`, by the bytes of the number. -/
structure FloatFormat where
  float : ℕ → CString
  double : ℕ → CString

/-! ## The builder -/

/-- `cb_binding_key_builder` (`binding_key.h`, lines 30–36): the field `n` is the
    number of parts. -/
structure BindingKeyBuilder where
  parts : List CString
  capacity : ℕ
deriving DecidableEq

namespace BindingKeyBuilder

/-- `cb_binding_key_builder_with_capacity` (lines 390–393). -/
def withCapacity (count : ℕ) : BindingKeyBuilder := ⟨[], count⟩

/-- A builder with one more part. -/
def push (builder : BindingKeyBuilder) (part : CString) : BindingKeyBuilder :=
  { builder with parts := builder.parts ++ [part] }

/-- `cb_binding_key_builder_add` (lines 16–37), with what the format prints. -/
def add (builder : BindingKeyBuilder) (text : CString) : Bool × BindingKeyBuilder :=
  if builder.capacity ≤ builder.parts.length then (false, builder)
  else (true, builder.push (text.take 31))

/-- `cb_binding_key_builder_add_bool` (lines 395–398). -/
def addBool (builder : BindingKeyBuilder) (val : Bool) : Bool × BindingKeyBuilder :=
  builder.add (decimal (if val then 1 else 0))

/-- `cb_binding_key_builder_add_float` (lines 400–403). -/
def addFloat (printf : FloatFormat) (builder : BindingKeyBuilder) (val : ℕ) :
    Bool × BindingKeyBuilder :=
  builder.add (printf.float val)

/-- `cb_binding_key_builder_add_double` (lines 405–408). -/
def addDouble (printf : FloatFormat) (builder : BindingKeyBuilder) (val : ℕ) :
    Bool × BindingKeyBuilder :=
  builder.add (printf.double val)

/-- `cb_binding_key_builder_add_u32` (lines 410–413). -/
def addU32 (builder : BindingKeyBuilder) (val : ℕ) : Bool × BindingKeyBuilder :=
  builder.add (decimal val)

/-- `cb_binding_key_builder_add_u64` (lines 415–418). -/
def addU64 (builder : BindingKeyBuilder) (val : ℕ) : Bool × BindingKeyBuilder :=
  builder.add (decimal val)

/-- `cb_binding_key_builder_add_i32` (lines 420–423). -/
def addI32 (builder : BindingKeyBuilder) (val : ℤ) : Bool × BindingKeyBuilder :=
  builder.add (decimal val)

/-- `cb_binding_key_builder_add_i64` (lines 425–428). -/
def addI64 (builder : BindingKeyBuilder) (val : ℤ) : Bool × BindingKeyBuilder :=
  builder.add (decimal val)

/-- `cb_binding_key_builder_add_str` (lines 430–439), with the string at `s`. -/
def addStr (builder : BindingKeyBuilder) (s : Option CString) :
    Except MessageKeyFault (Bool × BindingKeyBuilder) :=
  if builder.capacity ≤ builder.parts.length then .ok (false, builder)
  else
    match s with
    | none => .error .nullString
    | some s => .ok (true, builder.push s)

/-- `cb_binding_key_build` (lines 441–449). -/
def build (builder : BindingKeyBuilder) : BindingKey := some builder.parts

end BindingKeyBuilder

/-! ## The loop over the routing fields -/

section Loop

variable (printf : FloatFormat) (message : ProtobufCMessage)

/-- The string that a pointer points to. -/
def ProtobufCMessage.stringAt (address : ℕ) : Option CString :=
  if address = 0 then none else some (message.strings address)

/-- The `switch` of `cb_binding_key_from_message` (lines 237–271). -/
def addMember (builder : BindingKeyBuilder) (field : ProtobufCFieldDescriptor) :
    Except MessageKeyFault (Bool × BindingKeyBuilder) :=
  match field.type with
  | .bool => do
    let member ← message.load field.offset 4
    .ok (builder.addBool (cebusBoolFromInt (signed 4 member)))
  | .sfixed32 | .sint32 | .int32 => do
    let member ← message.load field.offset 4
    .ok (builder.addI32 (signed 4 member))
  | .fixed32 | .uint32 => do
    let member ← message.load field.offset 4
    .ok (builder.addU32 member)
  | .sfixed64 | .sint64 | .int64 => do
    -- Read as an `int32_t`.
    let member ← message.load field.offset 4
    .ok (builder.addI64 (signed 4 member))
  | .fixed64 | .uint64 => do
    let member ← message.load field.offset 8
    .ok (builder.addU64 member)
  | .float => do
    let member ← message.load field.offset 4
    .ok (builder.addFloat printf member)
  | .double => do
    let member ← message.load field.offset 8
    .ok (builder.addDouble printf member)
  | .string => do
    let member ← message.load field.offset 8
    builder.addStr (message.stringAt member)
  | .enum | .bytes | .message => .error .unsupportedType

/-- One turn of the loop (lines 218–273). -/
def addRoutingField (builder : BindingKeyBuilder) (field : ProtobufCFieldDescriptor) :
    Except MessageKeyFault (Bool × BindingKeyBuilder) :=
  if field.label = .optional then do
    let has ← message.load field.quantifierOffset 4
    if has = 0 then builder.addStr (some tokenStar)
    else addMember printf message builder field
  else addMember printf message builder field

/-- The loop (lines 218–273). -/
def addRoutingFields (builder : BindingKeyBuilder) :
    List ProtobufCFieldDescriptor → Except MessageKeyFault BindingKeyBuilder
  | [] => .ok builder
  | field :: rest => do
    let (_, builder) ← addRoutingField printf message builder field
    addRoutingFields builder rest

/-- `cb_binding_key_from_message` (lines 205–277). -/
def bindingKeyFromMessage (descriptor : ProtobufCebusMessageDescriptor) :
    Except MessageKeyFault BindingKey :=
  match descriptor.routingFields with
  | none => .ok BindingKey.init
  | some fields => do
    let builder ← addRoutingFields printf message (.withCapacity fields.length) fields
    .ok builder.build

end Loop

/-! ## What a key should be -/

namespace ProtobufCMessage

variable (message : ProtobufCMessage) (field : ProtobufCFieldDescriptor)

/-- An optional field is absent when its string is `NULL`, and a field of another
    type when its flag is not set. -/
def Absent : Prop :=
  field.label = .optional ∧
    if field.type = .string then message.loaded field.offset 8 = 0
    else message.loaded field.quantifierOffset 4 = 0

instance : Decidable (message.Absent field) := inferInstanceAs (Decidable (_ ∧ _))

/-- The value of a field in full: the string itself, `0` or `1`, or the decimals of
    the number. -/
def rendering : CString :=
  match field.type with
  | .bool => decimal (if message.loaded field.offset 4 = 0 then 0 else 1)
  | .int32 | .sint32 | .sfixed32 => decimal (signed 4 (message.loaded field.offset 4))
  | .uint32 | .fixed32 => decimal (message.loaded field.offset 4)
  | .int64 | .sint64 | .sfixed64 => decimal (signed 8 (message.loaded field.offset 8))
  | .uint64 | .fixed64 => decimal (message.loaded field.offset 8)
  | .string => message.strings (message.loaded field.offset 8)
  | .float | .double | .enum | .bytes | .message => tokenStar

/-- The fragment of a field. -/
def fragment : CString := if message.Absent field then tokenStar else message.rendering field

end ProtobufCMessage

/-- The width of a member that is a `bool`, an integer or a string. -/
def ProtobufCType.width : ProtobufCType → ℕ
  | .int64 | .sint64 | .sfixed64 | .uint64 | .fixed64 | .string => 8
  | _ => 4

/-- A routing field that is a `bool`, an integer or a string, required or optional
    (and not in a `oneof`), laid out in a structure of `size` bytes. An optional
    string has no flag. -/
structure ProtobufCFieldDescriptor.LaidOut (field : ProtobufCFieldDescriptor) (size : ℕ) :
    Prop where
  label : field.label = .required ∨ field.label = .optional
  type : field.type ∉ [.float, .double, .enum, .bytes, .message]
  member : field.offset + field.type.width ≤ size
  quantifier : if field.label = .optional ∧ field.type ≠ .string
    then field.quantifierOffset + 4 ≤ size else field.quantifierOffset = 0

theorem ProtobufCFieldDescriptor.laidOut_iff {field : ProtobufCFieldDescriptor} {size : ℕ} :
    field.LaidOut size ↔ (field.label = .required ∨ field.label = .optional) ∧
      field.type ∉ [.float, .double, .enum, .bytes, .message] ∧
      field.offset + field.type.width ≤ size ∧
      (if field.label = .optional ∧ field.type ≠ .string
        then field.quantifierOffset + 4 ≤ size else field.quantifierOffset = 0) :=
  ⟨fun h => ⟨h.label, h.type, h.member, h.quantifier⟩, fun ⟨hl, ht, hm, hq⟩ => ⟨hl, ht, hm, hq⟩⟩

instance (field : ProtobufCFieldDescriptor) (size : ℕ) : Decidable (field.LaidOut size) :=
  decidable_of_iff' _ ProtobufCFieldDescriptor.laidOut_iff

/-- The message has the type of the descriptor: the structure begins with the
    address of the descriptor, its fields lie in it, and its required strings are
    there. -/
structure ProtobufCMessage.Conforms (message : ProtobufCMessage)
    (fields : List ProtobufCFieldDescriptor) : Prop where
  base : 8 ≤ message.bytes.length
  laidOut : ∀ field ∈ fields, field.LaidOut message.bytes.length
  string : ∀ field ∈ fields, field.label = .required → field.type = .string →
    message.loaded field.offset 8 ≠ 0

/-- The key has one fragment for each routing field, in order. -/
def RendersExactly (printf : FloatFormat) (message : ProtobufCMessage)
    (descriptor : ProtobufCebusMessageDescriptor) : Prop :=
  ∃ key, bindingKeyFromMessage printf message descriptor = .ok key ∧
    BindingKey.fragmentCount key = (descriptor.routingFields.getD []).length ∧
    ∀ i field, (descriptor.routingFields.getD [])[i]? = some field →
      BindingKey.getFragment key i = some (message.fragment field)

/-- The value of a field comes out of the `switch` in full: a signed 64-bit value
    fits in 32 bits, and a `bool` is not negative. -/
def ProtobufCMessage.Fits (message : ProtobufCMessage) (field : ProtobufCFieldDescriptor) : Prop :=
  match field.type with
  | .bool => 0 ≤ signed 4 (message.loaded field.offset 4)
  | .int64 | .sint64 | .sfixed64 =>
    -2 ^ 31 ≤ signed 8 (message.loaded field.offset 8) ∧
      signed 8 (message.loaded field.offset 8) < 2 ^ 31
  | _ => True

/-- A field is read as it was written: its value fits, and an optional string is
    there exactly when the low half of the address of the message's descriptor is
    not zero, or is `*` itself. -/
def ProtobufCMessage.ReadAsWritten (message : ProtobufCMessage)
    (field : ProtobufCFieldDescriptor) : Prop :=
  if field.type = .string then
    field.label = .optional → (message.loaded 0 4 = 0 ↔ message.Absent field) ∨
      (¬ message.Absent field ∧ message.rendering field = tokenStar)
  else ¬ message.Absent field → message.Fits field

/-! ## Numbers -/

theorem decimal_inj {a b : ℤ} : decimal a = decimal b ↔ a = b := by
  constructor
  · intro h
    exact Decimal.ofInt_injective
      (CString.ofChars_injective (fun _ => Decimal.ofInt_ascii) (fun _ => Decimal.ofInt_ascii) h)
  · rintro rfl
    rfl

/-- The buffer of the builder has room for every 64-bit number. -/
theorem decimal_take {z : ℤ} (h : z.natAbs < 2 ^ 64) : (decimal z).take 31 = decimal z := by
  apply CString.take_of_length_le
  unfold decimal
  rw [CString.bytes_ofChars fun _ => Decimal.ofInt_ascii, List.length_map]
  have := Decimal.length_ofInt_le (k := 20) (by omega) (Nat.lt_trans h (by decide))
  omega

theorem signed_natAbs_lt {width n : ℕ} (hwidth : width ≤ 8) : (signed width n).natAbs < 2 ^ 64 := by
  have hpos : 0 < 256 ^ width := Nat.pow_pos (by decide)
  have hle : 256 ^ width ≤ 256 ^ 8 := Nat.pow_le_pow_right (by decide) hwidth
  have hlo := Int.le_bmod (x := (n : ℤ)) hpos
  have hhi := Int.bmod_lt (x := (n : ℤ)) hpos
  unfold signed
  omega

namespace ProtobufCMessage

theorem loaded_lt (message : ProtobufCMessage) (offset width : ℕ) :
    message.loaded offset width < 256 ^ width := by
  unfold loaded
  apply Nat.lt_of_lt_of_le (LittleEndian.ofBytes_lt _)
  apply Nat.pow_le_pow_right (by decide)
  rw [List.length_take]
  omega

/-- The first four bytes of eight. -/
theorem loaded_four (message : ProtobufCMessage) (offset : ℕ) :
    message.loaded offset 4 = message.loaded offset 8 % 256 ^ 4 := by
  unfold loaded
  rw [← LittleEndian.ofBytes_take, List.take_take]
  rfl

theorem load_of_le {message : ProtobufCMessage} {offset width : ℕ}
    (h : offset + width ≤ message.bytes.length) :
    message.load offset width = .ok (message.loaded offset width) := if_pos h

end ProtobufCMessage

/-- The low half of a signed 64-bit value is its value when this fits in 32 bits. -/
theorem signed_low_eq_iff (n : ℕ) : signed 4 (n % 256 ^ 4) = signed 8 n ↔
    -2 ^ 31 ≤ signed 8 n ∧ signed 8 n < 2 ^ 31 := by
  unfold signed
  rw [Int.bmod_def, Int.bmod_def]
  norm_num
  split_ifs
  · omega
  · omega
  · omega
  · omega

theorem signed_four_eq_zero_iff {n : ℕ} (h : n < 256 ^ 4) : signed 4 n = 0 ↔ n = 0 := by
  unfold signed
  rw [Int.bmod_def]
  norm_num at h ⊢
  split_ifs
  · omega
  · omega

/-! ## One routing field -/

namespace BindingKeyBuilder

variable {builder : BindingKeyBuilder}

theorem add_decimal (hroom : builder.parts.length < builder.capacity) {z : ℤ}
    (hz : z.natAbs < 2 ^ 64) : builder.add (decimal z) = (true, builder.push (decimal z)) := by
  unfold add
  rw [if_neg (by omega), decimal_take hz]

theorem addStr_none (hroom : builder.parts.length < builder.capacity) :
    builder.addStr none = .error .nullString := if_neg (by omega)

theorem addStr_some (hroom : builder.parts.length < builder.capacity) (s : CString) :
    builder.addStr (some s) = .ok (true, builder.push s) := if_neg (by omega)

end BindingKeyBuilder

section Step

variable (printf : FloatFormat) {message : ProtobufCMessage} {builder : BindingKeyBuilder}
  {field : ProtobufCFieldDescriptor}

/-- A number that is read and added. -/
theorem load_number {offset width : ℕ} {g : ℕ → ℤ}
    (hmember : offset + width ≤ message.bytes.length)
    (hroom : builder.parts.length < builder.capacity)
    (hz : (g (message.loaded offset width)).natAbs < 2 ^ 64) :
    (message.load offset width >>= fun member => .ok (builder.add (decimal (g member)))) =
      .ok (true, builder.push (decimal (g (message.loaded offset width)))) := by
  rw [ProtobufCMessage.load_of_le hmember, Fallible.ok_bind, BindingKeyBuilder.add_decimal hroom hz]

/-- What the `switch` adds for a `bool` or an integer. -/
theorem addMember_scalar (hlaid : field.LaidOut message.bytes.length)
    (hroom : builder.parts.length < builder.capacity) (hscalar : field.type ≠ .string) :
    ∃ part, addMember printf message builder field = .ok (true, builder.push part) ∧
      (part = message.rendering field ↔ message.Fits field) := by
  have hmember := hlaid.member
  have htypes := hlaid.type
  have hlow := message.loaded_lt field.offset 4
  have hfull := message.loaded_lt field.offset 8
  unfold addMember ProtobufCMessage.rendering ProtobufCMessage.Fits
  cases htype : field.type <;> rw [htype] at hmember htypes hscalar
  case bool =>
    refine ⟨_, load_number (g := fun m => if cebusBoolFromInt (signed 4 m) then 1 else 0)
      hmember hroom ?_, decimal_inj.trans ?_⟩
    · split_ifs <;> decide
    · have hzero := signed_four_eq_zero_iff hlow
      unfold cebusBoolFromInt
      simp only [decide_eq_true_eq]
      split_ifs <;> omega
  case int32 | sint32 | sfixed32 =>
    exact ⟨_, load_number hmember hroom (signed_natAbs_lt (by decide)), iff_of_true rfl trivial⟩
  case uint32 | fixed32 =>
    exact ⟨_, load_number (g := Nat.cast) hmember hroom (by rw [Int.natAbs_natCast]; omega),
      iff_of_true rfl trivial⟩
  case int64 | sint64 | sfixed64 =>
    have hfour : field.offset + 4 ≤ message.bytes.length :=
      Nat.le_trans (Nat.add_le_add_left (by decide) field.offset) hmember
    refine ⟨_, load_number hfour hroom (signed_natAbs_lt (by decide)), decimal_inj.trans ?_⟩
    rw [ProtobufCMessage.loaded_four]
    exact signed_low_eq_iff _
  case uint64 | fixed64 =>
    exact ⟨_, load_number (g := Nat.cast) hmember hroom (by rw [Int.natAbs_natCast]; omega),
      iff_of_true rfl trivial⟩
  case string => exact (hscalar rfl).elim
  case float | double | enum | bytes | message => simp at htypes

/-- What the `switch` adds for a string. -/
theorem addMember_string (hlaid : field.LaidOut message.bytes.length)
    (hroom : builder.parts.length < builder.capacity) (hstring : field.type = .string) :
    addMember printf message builder field =
      if message.loaded field.offset 8 = 0 then .error .nullString
      else .ok (true, builder.push (message.rendering field)) := by
  have hmember : field.offset + 8 ≤ message.bytes.length := by
    have := hlaid.member
    rwa [hstring] at this
  unfold addMember ProtobufCMessage.rendering ProtobufCMessage.stringAt
  rw [hstring]
  dsimp only
  rw [ProtobufCMessage.load_of_le hmember, Fallible.ok_bind]
  split_ifs with hnull
  · exact BindingKeyBuilder.addStr_none hroom
  · exact BindingKeyBuilder.addStr_some hroom _

/-- The builder has got the fragment of the field, or another one or no fragment at
    all if the field is not read as it was written. -/
def Adds (message : ProtobufCMessage) (builder : BindingKeyBuilder)
    (field : ProtobufCFieldDescriptor)
    (result : Except MessageKeyFault (Bool × BindingKeyBuilder)) : Prop :=
  (∃ fault, result = .error fault ∧ ¬ message.ReadAsWritten field) ∨
    ∃ part, result = .ok (true, builder.push part) ∧
      (part = message.fragment field ↔ message.ReadAsWritten field)

theorem readAsWritten_scalar (hscalar : field.type ≠ .string) :
    message.ReadAsWritten field ↔ (¬ message.Absent field → message.Fits field) := by
  unfold ProtobufCMessage.ReadAsWritten
  rw [if_neg hscalar]

theorem readAsWritten_string (hstring : field.type = .string) :
    message.ReadAsWritten field ↔
      (field.label = .optional → (message.loaded 0 4 = 0 ↔ message.Absent field) ∨
        (¬ message.Absent field ∧ message.rendering field = tokenStar)) := by
  unfold ProtobufCMessage.ReadAsWritten
  rw [if_pos hstring]

/-- A scalar that is not absent. -/
theorem adds_scalar (hlaid : field.LaidOut message.bytes.length)
    (hroom : builder.parts.length < builder.capacity) (hscalar : field.type ≠ .string)
    (hpresent : ¬ message.Absent field) :
    Adds message builder field (addMember printf message builder field) := by
  obtain ⟨part, hadd, hpart⟩ := addMember_scalar printf hlaid hroom hscalar
  refine .inr ⟨part, hadd, ?_⟩
  rw [readAsWritten_scalar hscalar, forall_prop_of_true hpresent]
  unfold ProtobufCMessage.fragment
  rwa [if_neg hpresent]

/-- An optional scalar, whose flag is read. -/
theorem adds_optionalScalar (hlaid : field.LaidOut message.bytes.length)
    (hroom : builder.parts.length < builder.capacity) (hscalar : field.type ≠ .string)
    (hoptional : field.label = .optional) :
    Adds message builder field (addRoutingField printf message builder field) := by
  have hflag : field.quantifierOffset + 4 ≤ message.bytes.length := by
    have := hlaid.quantifier
    rwa [if_pos ⟨hoptional, hscalar⟩] at this
  have habsent : message.Absent field ↔ message.loaded field.quantifierOffset 4 = 0 := by
    unfold ProtobufCMessage.Absent
    rw [if_neg hscalar]
    exact and_iff_right hoptional
  unfold addRoutingField
  rw [if_pos hoptional, ProtobufCMessage.load_of_le hflag, Fallible.ok_bind]
  split_ifs with hhas
  · rw [BindingKeyBuilder.addStr_some hroom]
    refine .inr ⟨tokenStar, rfl, ?_⟩
    unfold ProtobufCMessage.fragment
    rw [if_pos (habsent.2 hhas), readAsWritten_scalar hscalar]
    exact iff_of_true rfl fun h => (h (habsent.2 hhas)).elim
  · exact adds_scalar printf hlaid hroom hscalar fun h => hhas (habsent.1 h)

/-- An optional string, for which the address of the message's descriptor is read. -/
theorem adds_optionalString (hlaid : field.LaidOut message.bytes.length)
    (hbase : 8 ≤ message.bytes.length) (hroom : builder.parts.length < builder.capacity)
    (hstring : field.type = .string) (hoptional : field.label = .optional) :
    Adds message builder field (addRoutingField printf message builder field) := by
  have hzero : field.quantifierOffset = 0 := by
    have := hlaid.quantifier
    rwa [if_neg fun h => h.2 hstring] at this
  have habsent : message.Absent field ↔ message.loaded field.offset 8 = 0 := by
    unfold ProtobufCMessage.Absent
    rw [if_pos hstring]
    exact and_iff_right hoptional
  unfold addRoutingField
  rw [if_pos hoptional, hzero, ProtobufCMessage.load_of_le (by omega), Fallible.ok_bind]
  unfold Adds ProtobufCMessage.fragment
  rw [readAsWritten_string hstring, forall_prop_of_true hoptional]
  split_ifs with hhas hnull hnull
  · rw [BindingKeyBuilder.addStr_some hroom]
    exact .inr ⟨tokenStar, rfl, iff_of_true rfl (.inl (iff_of_true hhas hnull))⟩
  · rw [BindingKeyBuilder.addStr_some hroom]
    refine .inr ⟨tokenStar, rfl, ⟨fun h => .inr ⟨hnull, h.symm⟩, ?_⟩⟩
    rintro (h | ⟨-, h⟩)
    · exact (hnull (h.1 hhas)).elim
    · exact h.symm
  · rw [addMember_string printf hlaid hroom hstring, if_pos (habsent.1 hnull)]
    refine .inl ⟨.nullString, rfl, ?_⟩
    rintro (h | ⟨h, -⟩)
    · exact hhas (h.2 hnull)
    · exact h hnull
  · rw [addMember_string printf hlaid hroom hstring, if_neg fun h => hnull (habsent.2 h)]
    exact .inr ⟨_, rfl, iff_of_true rfl (.inl (iff_of_false hhas hnull))⟩

/-- **One turn of the loop.** -/
theorem addRoutingField_adds {fields : List ProtobufCFieldDescriptor}
    (hconforms : message.Conforms fields) (hfield : field ∈ fields)
    (hroom : builder.parts.length < builder.capacity) :
    Adds message builder field (addRoutingField printf message builder field) := by
  have hlaid := hconforms.laidOut field hfield
  by_cases hoptional : field.label = .optional
  · by_cases hstring : field.type = .string
    · exact adds_optionalString printf hlaid hconforms.base hroom hstring hoptional
    · exact adds_optionalScalar printf hlaid hroom hstring hoptional
  · have hpresent : ¬ message.Absent field := fun h => hoptional h.1
    unfold addRoutingField
    rw [if_neg hoptional]
    by_cases hstring : field.type = .string
    · have hlabel := hlaid.label.resolve_right hoptional
      rw [addMember_string printf hlaid hroom hstring,
        if_neg (hconforms.string field hfield hlabel hstring)]
      refine .inr ⟨_, rfl, ?_⟩
      unfold ProtobufCMessage.fragment
      rw [readAsWritten_string hstring, if_neg hpresent]
      exact iff_of_true rfl fun h => (hoptional h).elim
    · exact adds_scalar printf hlaid hroom hstring hpresent

end Step

/-! ## The whole key -/

/-- **The whole loop.** -/
theorem addRoutingFields_cases (printf : FloatFormat) {message : ProtobufCMessage}
    {all : List ProtobufCFieldDescriptor} (hconforms : message.Conforms all)
    {fields : List ProtobufCFieldDescriptor} (hsub : ∀ field ∈ fields, field ∈ all)
    (builder : BindingKeyBuilder)
    (hroom : builder.parts.length + fields.length ≤ builder.capacity) :
    (∃ fault, addRoutingFields printf message builder fields = .error fault ∧
        ¬ ∀ field ∈ fields, message.ReadAsWritten field) ∨
      ∃ parts, addRoutingFields printf message builder fields =
          .ok { builder with parts := builder.parts ++ parts } ∧
        parts.length = fields.length ∧
        (parts = fields.map message.fragment ↔ ∀ field ∈ fields, message.ReadAsWritten field) := by
  induction fields generalizing builder with
  | nil =>
    refine .inr ⟨[], ?_, rfl, iff_of_true rfl fun _ h => nomatch h⟩
    rw [List.append_nil]
    rfl
  | cons field rest ih =>
    rw [List.length_cons] at hroom
    rw [List.forall_mem_cons]
    unfold addRoutingFields
    obtain ⟨hfield, hrest⟩ := List.forall_mem_cons.1 hsub
    rcases addRoutingField_adds printf hconforms hfield
      (show builder.parts.length < builder.capacity by omega) with
      ⟨fault, hadd, hwrong⟩ | ⟨part, hadd, hpart⟩
    · rw [hadd]
      exact .inl ⟨fault, rfl, fun h => hwrong h.1⟩
    · rw [hadd, Fallible.ok_bind]
      have hmore : (builder.push part).parts.length + rest.length ≤ builder.capacity := by
        unfold BindingKeyBuilder.push
        rw [List.length_append, List.length_singleton]
        omega
      rcases ih hrest (builder.push part) hmore with
        ⟨fault, hloop, hwrong⟩ | ⟨parts, hloop, hparts, hiff⟩
      · exact .inl ⟨fault, hloop, fun h => hwrong h.2⟩
      · refine .inr ⟨part :: parts, ?_, by rw [List.length_cons, List.length_cons, hparts], ?_⟩
        · refine hloop.trans ?_
          unfold BindingKeyBuilder.push
          rw [List.append_assoc, List.singleton_append]
        · rw [List.map_cons, List.cons.injEq, hpart, hiff]

/-- Two lists of fragments are the same when they agree everywhere. -/
theorem parts_eq_map_iff {message : ProtobufCMessage} {fields : List ProtobufCFieldDescriptor}
    {parts : List CString} (hlen : parts.length = fields.length) :
    parts = fields.map message.fragment ↔
      ∀ (i : ℕ) field, fields[i]? = some field → parts[i]? = some (message.fragment field) := by
  constructor
  · rintro rfl i field hi
    rw [List.getElem?_map, hi]
    rfl
  · intro h
    apply List.ext_getElem?
    intro i
    rw [List.getElem?_map]
    cases hi : fields[i]? with
    | none =>
      rw [List.getElem?_eq_none_iff] at hi
      exact List.getElem?_eq_none (by omega)
    | some field => exact h i field hi

/-- **A key renders a message exactly when every routing field is read as it was
    written.** -/
theorem rendersExactly_iff (printf : FloatFormat) (message : ProtobufCMessage)
    (descriptor : ProtobufCebusMessageDescriptor)
    (h : message.Conforms (descriptor.routingFields.getD [])) :
    RendersExactly printf message descriptor ↔
      ∀ field ∈ descriptor.routingFields.getD [], message.ReadAsWritten field := by
  unfold RendersExactly bindingKeyFromMessage
  cases hfields : descriptor.routingFields with
  | none =>
    refine iff_of_true ⟨BindingKey.init, rfl, rfl, fun i field hi => ?_⟩ fun _ h => nomatch h
    cases hi
  | some fields =>
    rw [hfields] at h
    rw [Option.getD_some] at h ⊢
    rcases addRoutingFields_cases printf h (fun _ hf => hf) (.withCapacity fields.length)
      (Nat.le_of_eq (Nat.zero_add _)) with
      ⟨fault, hloop, hwrong⟩ | ⟨parts, hloop, hlen, hiff⟩
    · dsimp only
      rw [hloop]
      refine iff_of_false ?_ hwrong
      rintro ⟨key, hkey, -⟩
      cases hkey
    · dsimp only
      rw [hloop, ← hiff, parts_eq_map_iff hlen]
      constructor
      · rintro ⟨key, hkey, -, hall⟩
        cases hkey
        exact hall
      · intro hall
        exact ⟨_, rfl, hlen, hall⟩

/-! ## Three messages -/

/-- The routing fields of `TestRoutableEvent` (`tests/test_routable_event.proto`). -/
def testRoutableEventDescriptor : ProtobufCebusMessageDescriptor :=
  ⟨some [⟨.required, .string, 0, 24⟩, ⟨.optional, .bool, 40, 44⟩, ⟨.optional, .int32, 32, 36⟩]⟩

/-- The message of `should_create_partial_binding_key_from_proto_message`. -/
def testBinding : ProtobufCMessage where
  bytes := LittleEndian.toBytes 8 4096 ++ LittleEndian.toBytes 16 0 ++
    LittleEndian.toBytes 8 8192 ++ LittleEndian.toBytes 16 0
  strings := fun _ => CString.ofChars ['t', 'e', 's', 't']

theorem conforms_testBinding :
    testBinding.Conforms (testRoutableEventDescriptor.routingFields.getD []) where
  base := by decide
  laidOut := by decide
  string := by decide

/-- What is printed of the number zero. -/
def zeroFormat : FloatFormat where
  float := fun _ => CString.ofChars "0.000000".toList
  double := fun _ => CString.ofChars "0.000000".toList

/-- The key of the message of the test, which has no floating-point number. -/
theorem rendersExactly_testBinding :
    RendersExactly zeroFormat testBinding testRoutableEventDescriptor := by
  apply (rendersExactly_iff zeroFormat testBinding testRoutableEventDescriptor
    conforms_testBinding).2
  intro field hfield
  fin_cases hfield
  · exact fun h => nomatch h
  · exact fun h => (h (by decide)).elim
  · exact fun h => (h (by decide)).elim

/-- A message without its optional string. -/
def absentString : ProtobufCMessage where
  bytes := LittleEndian.toBytes 8 4096 ++ LittleEndian.toBytes 24 0
  strings := fun _ => tokenStar

/-- A message with the number `2 ^ 32`. -/
def wideNumber : ProtobufCMessage where
  bytes := LittleEndian.toBytes 8 4096 ++ LittleEndian.toBytes 16 0 ++
    LittleEndian.toBytes 8 (2 ^ 32)
  strings := fun _ => tokenStar

/-- The absent string stops the program, and the number is rendered as `0`. -/
theorem not_always_rendersExactly :
    (absentString.Conforms [⟨.optional, .string, 0, 24⟩] ∧
      ∀ printf, ¬ RendersExactly printf absentString ⟨some [⟨.optional, .string, 0, 24⟩]⟩) ∧
    wideNumber.Conforms [⟨.required, .int64, 0, 24⟩] ∧
      ∀ printf, ¬ RendersExactly printf wideNumber ⟨some [⟨.required, .int64, 0, 24⟩]⟩ := by
  refine ⟨⟨⟨by decide, by decide, by decide⟩, ?_⟩, ⟨by decide, by decide, by decide⟩, ?_⟩
  · rintro printf ⟨key, hkey, -⟩
    cases hkey
  · rintro printf ⟨key, hkey, -, hfragment⟩
    obtain rfl : some [decimal 0] = key := Except.ok.inj hkey
    have hzero := hfragment 0 _ rfl
    revert hzero
    decide

end Cebus
