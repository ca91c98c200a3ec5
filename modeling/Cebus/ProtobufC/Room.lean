import Cebus.ProtobufC.RoundTrip

/-!
# Room for the records of a message

A record takes two bytes at least, so a message that is not too long has not too many of them.

* `hasRoom_of_length`: the slabs have room for the records of a message of 2^28 - 32 bytes, and
  for those of the messages in it.
-/

namespace Cebus.ProtobufC

variable {δ : Type}

/-- There is room in the slabs for the records of the message. -/
def Message.hasRoom (descriptors : δ → MessageDescriptor δ) (message : Message δ) : Bool :=
  (message.records descriptors).length ≤ maxMembers

/-- The unknown fields of a message can be told from what follows them and from its fields. -/
def Message.unknownApart (descriptors : δ → MessageDescriptor δ) (message : Message δ) : Bool :=
  message.unknownFields.all fun record =>
    record.framed && (descriptors message.descriptor).key record = none

/-- There is something behind the tag of a record. -/
theorem data_pos_of_framed {record : UnknownField} (h : record.framed = true) :
    0 < record.data.length := by
  rw [UnknownField.framed, Bool.and_eq_true, decide_eq_true_eq, decide_eq_true_eq] at h
  refine Nat.pos_of_ne_zero fun hzero => ?_
  rw [List.length_eq_zero_iff] at hzero
  have hscan := h.2
  rw [hzero, scanData] at hscan
  split_ifs at hscan with h0 h1 h8 h2 h5 h4
  · cases hscan
  · exact absurd (show [].length < 8 by decide) h8
  · cases hscan
  · exact absurd (show [].length < 4 by decide) h4

theorem delimited_pos (payload : List UInt8) : 0 < (delimited payload).length := by
  have hpos := Base128.length_encode_pos payload.length
  rw [length_delimited]
  omega

section

variable {descriptors : δ → MessageDescriptor δ} {field : FieldDescriptor δ}

theorem memberData_pos (member : Member δ) : 0 < (memberData descriptors member).length := by
  obtain ⟨type, value, rfl⟩ | ⟨-, payload, hdata⟩ :=
    memberData_cases descriptors member
  · have hlen := (type.length_pack (δ := Unit) value).1
    have hmin : 0 < (FieldType.scalar type : FieldType Unit).minSize := by cases type <;> decide
    exact Nat.lt_of_lt_of_le hmin hlen
  · rw [hdata]
    exact delimited_pos payload

theorem membersRecords_pos {members : List (Member δ)} :
    ∀ record ∈ membersRecords descriptors field members, 0 < record.data.length := by
  induction members with
  | nil => exact fun record hrecord => absurd hrecord List.not_mem_nil
  | cons member members ih =>
    rw [membersRecords]
    exact List.forall_mem_cons.mpr ⟨memberData_pos member, ih⟩

theorem slotRecords_pos (slot : Slot δ) :
    ∀ record ∈ slotRecords descriptors field slot, 0 < record.data.length := by
  have hnone : ∀ record ∈ ([] : List UnknownField), 0 < record.data.length :=
    fun record hrecord => absurd hrecord List.not_mem_nil
  cases slot with
  | single member | flagged has member =>
    rw [slotRecords]
    split_ifs with hthere
    · exact List.forall_mem_singleton.mpr (memberData_pos member)
    · exact hnone
  | repeated members =>
    rw [slotRecords]
    split_ifs with hpacked hempty
    · exact hnone
    · exact List.forall_mem_singleton.mpr (delimited_pos _)
    · exact membersRecords_pos

theorem two_mul_length_le {records : List UnknownField}
    (h : ∀ record ∈ records, 0 < record.data.length) :
    2 * records.length ≤ (records.flatMap UnknownField.bytes).length := by
  induction records with
  | nil => exact Nat.zero_le _
  | cons record records ih =>
    obtain ⟨hfirst, hothers⟩ := List.forall_mem_cons.mp h
    have hrest := ih hothers
    have htag := Base128.length_encode_pos (8 * record.tag.toNat)
    rw [List.flatMap_cons, List.length_append, List.length_cons, UnknownField.length_bytes,
      getTagSize_eq]
    omega

theorem memberAll_of_hasFlag [DecidableEq δ] {test : Message δ → Bool} {type : FieldType δ}
    {member : Member δ} (hflag : type.hasFlag = true) (h : member.hasType type = true) :
    memberAll test member = true := by
  cases type with
  | scalar | bytes =>
    cases member with
    | scalar | bytes => rfl
    | string => cases h
    | message sub => cases sub <;> cases h
  | string | message => cases hflag

theorem membersAll_of_packable [DecidableEq δ] {test : Message δ → Bool} {type : FieldType δ}
    {members : List (Member δ)} (hp : type.isPackable = true)
    (h : members.all (·.hasType type) = true) : membersAll test members = true := by
  induction members with
  | nil => rfl
  | cons member members ih =>
    rw [List.all_cons, Bool.and_eq_true] at h
    obtain ⟨scalar, value, -, rfl⟩ := Member.isScalar hp h.1
    rw [membersAll, memberAll, ih h.2, Bool.true_and]
    exact fun sub hsub => nomatch hsub

end

section

variable [DecidableEq δ] (descriptors : δ → MessageDescriptor δ)

mutual

/-- **A message that is not too long** has not too many records, and neither have the messages
    in it. -/
theorem hasRoom_of_length : ∀ (message : Message δ), message.valid descriptors = true →
    message.all (Message.unknownApart descriptors) = true →
    (message.bytes descriptors).length ≤ 2 * maxMembers →
    message.all (Message.hasRoom descriptors) = true
  | .mk descriptor slots unknownFields, hv, hu, hle => by
    rw [Message.valid, Message.all, Bool.and_eq_true] at hv
    rw [Message.all, Bool.and_eq_true] at hu
    rw [Message.all, Bool.and_eq_true]
    rw [Message.bytes] at hle
    have hshort := length_data_lt (Nat.lt_succ_of_le hle)
    rw [Message.records] at hle hshort
    have hpos : ∀ record ∈ slotsRecords descriptors (descriptors descriptor).fields slots ++
        unknownFields, 0 < record.data.length := by
      intro record hrecord
      obtain hmem | hmem := List.mem_append.mp hrecord
      · obtain ⟨i, f, s, -, -, hin⟩ := exists_of_mem_slotsRecords hmem
        exact slotRecords_pos s record hin
      · have hapart := List.all_eq_true.mp hu.1 record hmem
        rw [Bool.and_eq_true] at hapart
        exact data_pos_of_framed hapart.1
    have hcount := two_mul_length_le hpos
    refine ⟨decide_eq_true ?_, slots_hasRoom slots (descriptors descriptor).fields hv.1 hv.2 hu.2
      (fun field hfield h => ((descriptors descriptor).packed field hfield h).2)
      fun record hrecord => Nat.le_of_lt_succ (hshort record (List.mem_append_left _ hrecord))⟩
    rw [Message.records]
    omega

theorem slots_hasRoom : ∀ (slots : List (Slot δ)) (fields : List (FieldDescriptor δ)),
    slotsHold Slot.valid fields slots = true →
    slotsAll (Message.slotsValid descriptors) slots = true →
    slotsAll (Message.unknownApart descriptors) slots = true →
    (∀ field ∈ fields, field.packed = true → field.type.isPackable = true) →
    (∀ record ∈ slotsRecords descriptors fields slots, record.data.length ≤ 2 * maxMembers) →
    slotsAll (Message.hasRoom descriptors) slots = true
  | [], _, _, _, _, _, _ => rfl
  | _ :: _, [], h, _, _, _, _ => by cases h
  | slot :: slots, field :: fields, h, ha, hu, hp, hle => by
    rw [slotsHold_cons] at h
    rw [slotsAll, Bool.and_eq_true] at ha hu
    rw [slotsRecords] at hle
    rw [slotsAll, Bool.and_eq_true]
    obtain ⟨hfirst, hothers⟩ := List.forall_mem_cons.mp hp
    exact ⟨slot_hasRoom slot field h.1 ha.1 hu.1 hfirst
        fun record hin => hle record (List.mem_append_left _ hin),
      slots_hasRoom slots fields h.2 ha.2 hu.2 hothers
        fun record hin => hle record (List.mem_append_right _ hin)⟩

theorem slot_hasRoom : ∀ (slot : Slot δ) (field : FieldDescriptor δ),
    slot.valid field = true → slotAll (Message.slotsValid descriptors) slot = true →
    slotAll (Message.unknownApart descriptors) slot = true →
    (field.packed = true → field.type.isPackable = true) →
    (∀ record ∈ slotRecords descriptors field slot, record.data.length ≤ 2 * maxMembers) →
    slotAll (Message.hasRoom descriptors) slot = true
  | .single member, field, _, ha, hu, _, hle => by
    cases hpresent : member.present with
    | true =>
      rw [slotRecords, hpresent, Bool.or_true, if_pos rfl] at hle
      exact member_hasRoom member ha hu (hle _ (List.mem_singleton_self _))
    | false =>
      cases member with
      | scalar | string | bytes => rfl
      | message sub =>
        cases sub with
        | none => rfl
        | some sub => cases hpresent
  | .flagged has member, field, hv, _, _, _, _ => by
    rw [Slot.valid, Slot.fits, Bool.and_eq_true, Bool.and_eq_true, Bool.and_eq_true] at hv
    exact memberAll_of_hasFlag hv.1.1.2 hv.1.2
  | .repeated members, field, hv, ha, hu, hp, hle => by
    obtain ⟨htype, -⟩ := Slot.valid_repeated hv
    rw [slotRecords] at hle
    split_ifs at hle with hpacked hempty
    · rw [List.isEmpty_iff.mp hempty]
      rfl
    · exact membersAll_of_packable (hp hpacked) htype
    · exact members_hasRoom members field ha hu hle

theorem members_hasRoom : ∀ (members : List (Member δ)) (field : FieldDescriptor δ),
    membersAll (Message.slotsValid descriptors) members = true →
    membersAll (Message.unknownApart descriptors) members = true →
    (∀ record ∈ membersRecords descriptors field members,
      record.data.length ≤ 2 * maxMembers) →
    membersAll (Message.hasRoom descriptors) members = true
  | [], _, _, _, _ => rfl
  | member :: members, field, ha, hu, hle => by
    rw [membersAll, Bool.and_eq_true] at ha hu
    rw [membersRecords] at hle
    rw [membersAll, Bool.and_eq_true]
    obtain ⟨hfirst, hothers⟩ := List.forall_mem_cons.mp hle
    exact ⟨member_hasRoom member ha.1 hu.1 hfirst, members_hasRoom members field ha.2 hu.2 hothers⟩

theorem member_hasRoom : ∀ (member : Member δ),
    memberAll (Message.slotsValid descriptors) member = true →
    memberAll (Message.unknownApart descriptors) member = true →
    (memberData descriptors member).length ≤ 2 * maxMembers →
    memberAll (Message.hasRoom descriptors) member = true
  | .message (some sub), ha, hu, hle => by
    rw [memberAll] at ha hu
    rw [memberData, ← Message.bytes] at hle
    exact hasRoom_of_length sub ha hu (Nat.le_trans (length_le_delimited _) hle)
  | .message none, _, _, _ => rfl
  | .scalar _ _, _, _, _ => rfl
  | .string _, _, _, _ => rfl
  | .bytes _, _, _, _ => rfl

end

end

end Cebus.ProtobufC
