import Cebus.Lib.Components
import Cebus.ProtobufC.Records
import Mathlib.Algebra.Order.BigOperators.Group.List
import Mathlib.Algebra.Order.Group.Nat

/-!
# What bytes mean

The bytes are read as records, and each record changes the slot of its field. Nothing is looked
up in a table, and there are no slabs: of them only the bound on the number of records of a
message is left, and bytes with more of them mean no message.

* `decodeFuel_eq`: a message is decoded as deep as it is nested.
-/

namespace Cebus.ProtobufC

variable {δ : Type}

/-! ## Arrays of numbers -/

/-- A number at the front of a packed array. -/
def ScalarType.scanElement (type : ScalarType) (data : List UInt8) :
    Option (type.Carrier × List UInt8) :=
  match type.fixedSize with
  | some size =>
    if data.length < size then none
    else some (type.parseValue (data.take size), data.drop size)
  | none =>
    (terminator 10 data).map fun i => (type.parseValue (data.take (i + 1)), data.drop (i + 1))

theorem ScalarType.fixedSize_pos {type : ScalarType} {size : ℕ} (h : type.fixedSize = some size) :
    0 < size := by
  cases type <;> cases h <;> decide

theorem ScalarType.scanElement_shorter {type : ScalarType} {data rest : List UInt8}
    {value : type.Carrier} (h : type.scanElement data = some (value, rest)) :
    rest.length < data.length := by
  rw [ScalarType.scanElement] at h
  cases hsize : type.fixedSize with
  | some size =>
    have hpos := fixedSize_pos hsize
    rw [hsize] at h
    dsimp only at h
    split_ifs at h with hshort
    obtain ⟨-, rfl⟩ := Prod.mk.inj (Option.some.inj h)
    rw [List.length_drop]
    omega
  | none =>
    rw [hsize] at h
    obtain ⟨i, hend, heq⟩ := Option.map_eq_some_iff.mp h
    obtain ⟨-, rfl⟩ := Prod.mk.inj heq
    have hlt := firstLow_lt (terminator_eq_some_iff.mp hend).1
    rw [List.length_drop]
    omega

/-- The numbers of a packed array. -/
def ScalarType.elements (type : ScalarType) : Scanner UInt8 type.Carrier where
  scan := type.scanElement
  shorter := fun _ _ _ h => ScalarType.scanElement_shorter h

/-- The members that a packed array becomes. -/
def FieldType.arrayOf (type : FieldType δ) (payload : List UInt8) : Option (List (Member δ)) :=
  match type with
  | .scalar type => (type.elements.items payload).map (List.map (.scalar type))
  | _ => none

/-! ## Messages -/

section

variable (descriptors : δ → MessageDescriptor δ) (decode : δ → List UInt8 → Option (Message δ))

/-- A message takes over what it needs of an earlier one. -/
def takeOver (previous : Option (Member δ)) (sub : Message δ) : Message δ :=
  match previous with
  | some (.message (some earlier)) => mergeMessages descriptors earlier sub
  | _ => sub

/-- The member that a record becomes, when `previous` is there before. -/
def FieldType.memberOf (type : FieldType δ) (record : UnknownField)
    (previous : Option (Member δ)) : Option (Member δ) :=
  match type with
  | .scalar type =>
    if type.accepts record.wireType then some (.scalar type (type.parseValue record.data))
    else none
  | .string =>
    if record.wireType = WireType.lengthPrefixed then
      some (.string (some (copiedString record.payload)))
    else none
  | .bytes =>
    if record.wireType = WireType.lengthPrefixed then some (.bytes record.payload) else none
  | .message descriptor =>
    if record.wireType = WireType.lengthPrefixed then
      (decode descriptor record.payload).map fun sub =>
        .message (some (takeOver descriptors previous sub))
    else none

/-- The slot of a field after a record of it. -/
def FieldDescriptor.absorb (field : FieldDescriptor δ) : Slot δ → UnknownField → Option (Slot δ)
  | .single member, record =>
    (field.type.memberOf descriptors decode record (some member)).map .single
  | .flagged _ member, record =>
    (field.type.memberOf descriptors decode record (some member)).map (.flagged true)
  | .repeated members, record =>
    if field.isPackedData record.wireType then
      (field.type.arrayOf record.payload).map fun more => .repeated (members ++ more)
    else
      (field.type.memberOf descriptors decode record none).map fun member =>
        .repeated (members ++ [member])

/-- The field of a record. -/
def MessageDescriptor.key (desc : MessageDescriptor δ) (record : UnknownField) : Option ℕ :=
  desc.index record.tag

/-- A record changes the slot with this index. -/
def MessageDescriptor.change (desc : MessageDescriptor δ) (i : ℕ) (slot : Slot δ)
    (record : UnknownField) : Option (Slot δ) :=
  desc.fields[i]?.bind fun field => field.absorb descriptors decode slot record

/-- There is a record for each required field. -/
def MessageDescriptor.complete (desc : MessageDescriptor δ) (records : List UnknownField) : Bool :=
  desc.fields.all fun field =>
    field.label ≠ .required || records.any fun record => record.tag = field.id

/-- The records that are kept as they are. -/
def MessageDescriptor.unknown (desc : MessageDescriptor δ) (records : List UnknownField) :
    List UnknownField :=
  records.filter fun record => desc.key record = none

/-- How many members the slabs have room for. -/
def maxMembers : ℕ := 16 * (2 ^ 23 - 1)

/-- The message of some records. -/
def decodeRecords (descriptor : δ) (records : List UnknownField) : Option (Message δ) :=
  let desc := descriptors descriptor
  if records.length ≤ maxMembers ∧ desc.complete records = true then
    (records.foldlM (Components.step desc.key (desc.change descriptors decode))
        (desc.fields.map FieldDescriptor.init)).map fun slots =>
      .mk descriptor slots (desc.unknown records)
  else none

/-- The message of type `descriptor` whose fields are the records of `data`, if it has a form.
    -/
def decodeFields (descriptor : δ) (data : List UInt8) : Option (Message δ) :=
  (recordScanner.items data).bind (decodeRecords descriptors decode descriptor)

end

section

variable (descriptors : δ → MessageDescriptor δ)

/-- Messages that are nested `fuel` deep at most. -/
def decodeFuel : ℕ → δ → List UInt8 → Option (Message δ)
  | 0, _, _ => none
  | fuel + 1, descriptor, data => decodeFields descriptors (decodeFuel fuel) descriptor data

/-- The message that bytes mean. -/
def decode (descriptor : δ) (data : List UInt8) : Option (Message δ) :=
  decodeFuel descriptors (data.length + 1) descriptor data

end

/-! ## Nested messages -/

variable {descriptors : δ → MessageDescriptor δ}
variable {decode₁ decode₂ : δ → List UInt8 → Option (Message δ)}
variable {record : UnknownField} {data : List UInt8} {descriptor : δ}

theorem length_payload_le (record : UnknownField) : record.payload.length ≤ record.data.length := by
  rw [UnknownField.payload, List.length_drop]
  omega

/-- What a record holds is shorter than the bytes with the record. -/
theorem length_payload_lt {records : List UnknownField}
    (h : recordScanner.items data = some records) :
    ∀ record ∈ records, record.payload.length < data.length := by
  have hsum := Scanner.sum_le_length (fun record : UnknownField => record.data.length + 1)
    (fun _ _ _ hscan => scanRecord_length hscan) h
  intro record hrecord
  have hle := length_payload_le record
  have hone := List.single_le_sum (fun _ _ => Nat.zero_le _) _
    (List.mem_map_of_mem (f := fun record : UnknownField => record.data.length + 1) hrecord)
  omega

theorem memberOf_congr (type : FieldType δ) (previous : Option (Member δ))
    (h : ∀ descriptor, decode₁ descriptor record.payload = decode₂ descriptor record.payload) :
    type.memberOf descriptors decode₁ record previous =
      type.memberOf descriptors decode₂ record previous := by
  cases type with
  | message descriptor => rw [FieldType.memberOf, FieldType.memberOf, h]
  | scalar | string | bytes => rfl

theorem absorb_congr (field : FieldDescriptor δ) (slot : Slot δ)
    (h : ∀ descriptor, decode₁ descriptor record.payload = decode₂ descriptor record.payload) :
    field.absorb descriptors decode₁ slot record =
      field.absorb descriptors decode₂ slot record := by
  cases slot with
  | single member | flagged has member | repeated members =>
    simp only [FieldDescriptor.absorb, memberOf_congr _ _ h]

theorem decodeRecords_congr {records : List UnknownField}
    (h : ∀ record ∈ records, ∀ descriptor,
      decode₁ descriptor record.payload = decode₂ descriptor record.payload) :
    decodeRecords descriptors decode₁ descriptor records =
      decodeRecords descriptors decode₂ descriptor records := by
  have hfold (slots : List (Slot δ)) :
      records.foldlM (Components.step (descriptors descriptor).key
          ((descriptors descriptor).change descriptors decode₁)) slots =
        records.foldlM (Components.step (descriptors descriptor).key
          ((descriptors descriptor).change descriptors decode₂)) slots := by
    induction records generalizing slots with
    | nil => rfl
    | cons record records ih =>
      obtain ⟨hfirst, hrest⟩ := List.forall_mem_cons.mp h
      have hchange (i : ℕ) (slot : Slot δ) :
          (descriptors descriptor).change descriptors decode₁ i slot record =
            (descriptors descriptor).change descriptors decode₂ i slot record := by
        simp only [MessageDescriptor.change, absorb_congr _ _ hfirst]
      simp only [List.foldlM_cons, Components.step, hchange, ih hrest]
  simp only [decodeRecords, hfold]

theorem decodeFields_congr
    (h : ∀ descriptor rest, rest.length < data.length →
      decode₁ descriptor rest = decode₂ descriptor rest) :
    decodeFields descriptors decode₁ descriptor data =
      decodeFields descriptors decode₂ descriptor data := by
  rw [decodeFields, decodeFields]
  cases hrecords : recordScanner.items data with
  | none => rfl
  | some records =>
    exact decodeRecords_congr fun record hrecord d =>
      h d record.payload (length_payload_lt hrecords record hrecord)

theorem decodeFuel_succ {fuel : ℕ} (h : data.length < fuel) :
    decodeFuel descriptors (fuel + 1) descriptor data =
      decodeFuel descriptors fuel descriptor data := by
  induction fuel generalizing data descriptor with
  | zero => omega
  | succ fuel ih =>
    rw [decodeFuel, decodeFuel]
    exact decodeFields_congr fun d rest hlt => ih (by omega)

theorem decodeFuel_eq {fuel : ℕ} (h : data.length < fuel) :
    decodeFuel descriptors fuel descriptor data = decode descriptors descriptor data := by
  obtain ⟨k, rfl⟩ := Nat.exists_eq_add_of_le (Nat.succ_le_of_lt h)
  induction k with
  | zero => rfl
  | succ k ih => rw [← ih (by omega), ← Nat.add_assoc, decodeFuel_succ (by omega)]

/-- **A message is decoded from the messages that it holds.** -/
theorem decode_eq (descriptor : δ) (data : List UInt8) :
    decode descriptors descriptor data =
      decodeFields descriptors (decode descriptors) descriptor data := by
  rw [decode, decodeFuel]
  exact decodeFields_congr fun d rest hlt => decodeFuel_eq hlt

end Cebus.ProtobufC
