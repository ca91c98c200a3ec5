import Cebus.ProtobufC.Accepted
import Cebus.ProtobufC.Room
import Cebus.ProtobufC.UnpackRefine

/-!
# Messages that are decoded and written again

* `valid_of_accepted`: a message that has been parsed can be packed.
* `decode_bytes_of_decode`: it is written so that it is read again, if no unknown field has
  the number 0.
* `decode_bytes_eq_none`: otherwise what is written is not read.
-/

namespace Cebus.ProtobufC

variable {δ : Type}

/-! ## Messages that are written again -/

theorem decode_of_unpack {descriptors : δ → MessageDescriptor δ} {descriptor : δ}
    {data : List UInt8} {message : Message δ} (hdata : data.length < 2 ^ 32)
    (h : messageUnpack descriptors descriptor data = .ok message) :
    decode descriptors descriptor data = some message := by
  rw [messageUnpack_eq descriptors descriptor hdata] at h
  cases hdecode : decode descriptors descriptor data with
  | none => rw [hdecode] at h; cases h
  | some message' =>
    rw [hdecode] at h
    exact congrArg some (Except.ok.inj h)

/-- No unknown field of the message has the number 0. -/
def Message.numbered (message : Message δ) : Bool :=
  message.unknownFields.all fun record => record.tag ≠ 0

/-- A property of a message that follows from another one, and so in those in it. -/
theorem Message.all_imp {p q : Message δ → Bool} {message : Message δ}
    (h : ∀ m, p m = true → q m = true) (hp : message.all p = true) : message.all q = true := by
  have hboth : p = fun m => p m && q m := by
    funext m
    cases hm : p m with
    | false => rfl
    | true => rw [h m hm, Bool.true_and]
  rw [hboth, Message.all_and, Bool.and_eq_true] at hp
  exact hp.2

section

variable [DecidableEq δ] {descriptors : δ → MessageDescriptor δ} {field : FieldDescriptor δ}

theorem valid_slot_of_accepted {slot : Slot δ} (h : slot.accepted field = true) :
    slot.valid field = true := by
  obtain ⟨hfits, -, hchecked⟩ := Slot.accepted_iff.mp h
  rw [Slot.valid, hfits, hchecked, Bool.true_and]

theorem valid_of_slotsHold {fields : List (FieldDescriptor δ)} {slots : List (Slot δ)}
    (h : slotsHold Slot.accepted fields slots = true) :
    slotsHold Slot.valid fields slots = true := by
  refine slotsHold_of_forall (length_of_slotsHold h) fun i field slot hfield hslot => ?_
  obtain ⟨s, hs, haccepted⟩ := getElem?_of_slotsHold h hfield
  obtain rfl := Option.some.inj (hs.symm.trans hslot)
  exact valid_slot_of_accepted haccepted

/-- **A message that has been parsed can be packed.** -/
theorem valid_of_accepted {message : Message δ} (h : message.accepted descriptors = true) :
    message.valid descriptors = true :=
  Message.all_imp (fun _ hm => valid_of_slotsHold (Bool.and_eq_true _ _ ▸ hm).1) h

theorem accepted_of_unpack {descriptor : δ} {data : List UInt8} {message : Message δ}
    (hdata : data.length < 2 ^ 32)
    (h : messageUnpack descriptors descriptor data = .ok message) :
    message.descriptor = descriptor ∧ message.accepted descriptors = true :=
  decode_accepted (decode_of_unpack hdata h)

theorem readable_of_accepted {message : Message δ} (h : message.accepted descriptors = true)
    (hnumbered : message.all Message.numbered = true)
    (hroom : message.all (Message.hasRoom descriptors) = true) :
    message.readable descriptors = true := by
  have hall : message.all (fun m => m.slotsAccepted descriptors &&
      (m.numbered && m.hasRoom descriptors)) = true := by
    rw [Message.all_and, Message.all_and, hnumbered, hroom, Bool.and_self, Bool.and_true]
    exact h
  refine Message.all_imp (fun m hm => ?_) hall
  rw [Bool.and_eq_true, Bool.and_eq_true, Message.slotsAccepted, Bool.and_eq_true] at hm
  obtain ⟨⟨-, hunknown⟩, htags, hlen⟩ := hm
  rw [Message.separate, Bool.and_eq_true]
  refine ⟨hlen, List.all_eq_true.mpr fun record hin => ?_⟩
  have hrecord := List.all_eq_true.mp hunknown record hin
  have htag := List.all_eq_true.mp htags record hin
  rw [Bool.and_eq_true] at hrecord ⊢
  rw [UnknownField.framed, Bool.and_eq_true]
  exact ⟨⟨htag, hrecord.1⟩, hrecord.2⟩

theorem cleared_of_settled {member : Member δ}
    (hfits : (Slot.flagged false member).fits field = true)
    (hsettled : (Slot.flagged false member).settled = true) : member.cleared = member := by
  obtain ⟨⟨-, hflag⟩, htype⟩ := Slot.fits_flagged_iff.mp hfits
  cases member with
  | scalar type value =>
    have hzero : value = type.zero := of_decide_eq_true hsettled
    rw [hzero, Member.cleared]
  | bytes data =>
    have hnil : data = [] := List.isEmpty_iff.mp hsettled
    rw [hnil, Member.cleared]
  | string str =>
    cases htype' : field.type <;> rw [htype'] at hflag htype
    case string => cases hflag
    case message => cases hflag
    case scalar => cases htype
    case bytes => cases htype
  | message sub =>
    cases htype' : field.type <;> rw [htype'] at hflag htype
    case string => cases hflag
    case message => cases hflag
    case scalar => cases sub <;> cases htype
    case bytes => cases sub <;> cases htype

mutual

/-- A message that has been parsed has no values of optional fields that are not set. -/
theorem normal_of_accepted : ∀ (message : Message δ), message.accepted descriptors = true →
    message.normal = message
  | .mk descriptor slots unknownFields, h => by
    rw [Message.accepted, Message.all, Bool.and_eq_true, Message.slotsAccepted, Bool.and_eq_true]
      at h
    rw [Message.normal, slotsNormal_of_accepted slots (descriptors descriptor).fields h.1.1 h.2]

theorem slotsNormal_of_accepted : ∀ (slots : List (Slot δ)) (fields : List (FieldDescriptor δ)),
    slotsHold Slot.accepted fields slots = true →
    slotsAll (Message.slotsAccepted descriptors) slots = true → slotsNormal slots = slots
  | [], _, _, _ => rfl
  | _ :: _, [], h, _ => by cases h
  | slot :: slots, field :: fields, h, ha => by
    rw [slotsHold_cons] at h
    rw [slotsAll, Bool.and_eq_true] at ha
    rw [slotsNormal, slotNormal_of_accepted slot field h.1 ha.1,
      slotsNormal_of_accepted slots fields h.2 ha.2]

theorem slotNormal_of_accepted : ∀ (slot : Slot δ) (field : FieldDescriptor δ),
    slot.accepted field = true → slotAll (Message.slotsAccepted descriptors) slot = true →
    slotNormal slot = slot
  | .single member, _, _, ha => by rw [slotNormal, memberNormal_of_accepted member ha]
  | .flagged true member, _, _, ha => by
    rw [slotNormal, if_pos rfl, memberNormal_of_accepted member ha]
  | .flagged false member, field, h, _ => by
    obtain ⟨hfits, hsettled, -⟩ := Slot.accepted_iff.mp h
    rw [slotNormal, if_neg Bool.false_ne_true, cleared_of_settled hfits hsettled]
  | .repeated members, _, _, ha => by rw [slotNormal, membersNormal_of_accepted members ha]

theorem membersNormal_of_accepted : ∀ (members : List (Member δ)),
    membersAll (Message.slotsAccepted descriptors) members = true →
    membersNormal members = members
  | [], _ => rfl
  | member :: members, ha => by
    rw [membersAll, Bool.and_eq_true] at ha
    rw [membersNormal, memberNormal_of_accepted member ha.1, membersNormal_of_accepted members ha.2]

theorem memberNormal_of_accepted : ∀ (member : Member δ),
    memberAll (Message.slotsAccepted descriptors) member = true → memberNormal member = member
  | .message (some sub), ha => by
    rw [memberNormal, normal_of_accepted sub ha]
  | .message none, _ => rfl
  | .scalar _ _, _ => rfl
  | .string _, _ => rfl
  | .bytes _, _ => rfl

end

/-- **A message that has been decoded is written so that it is decoded again.** -/
theorem decode_bytes_of_decode {descriptor : δ} {data : List UInt8} {message : Message δ}
    (h : decode descriptors descriptor data = some message)
    (hnumbered : message.all Message.numbered = true)
    (hroom : message.all (Message.hasRoom descriptors) = true)
    (hlt : (message.bytes descriptors).length < 2 ^ 31) :
    decode descriptors descriptor (message.bytes descriptors) = some message := by
  obtain ⟨rfl, haccepted⟩ := decode_accepted h
  have hback := decode_bytes descriptors message (valid_of_accepted haccepted)
    (readable_of_accepted haccepted hnumbered hroom) hlt
  rwa [normal_of_accepted message haccepted] at hback

end

/-! ## Messages that are not read again -/

theorem bytes_ne_nil (record : UnknownField) : record.bytes ≠ [] := by
  have hpos := Base128.length_encode_pos (8 * record.tag.toNat)
  refine List.ne_nil_of_length_pos ?_
  rw [UnknownField.length_bytes, getTagSize_eq]
  omega

/-- A record with the number 0 is written as a tag that is refused. -/
theorem scanRecord_bytes_zero {record : UnknownField} (htag : record.tag = 0)
    (hscan : scanData record.wireType record.data =
      some (record.data.length, record.prefixLen)) (rest : List UInt8) :
    scanRecord (record.bytes ++ rest) = none := by
  have hw := scanData_lt hscan
  have hzero : 8 * record.tag.toNat + record.wireType.toNat = record.wireType.toNat := by
    rw [htag]
    exact Nat.zero_add _
  rw [scanRecord, UnknownField.bytes, setWireType_encode hw, hzero,
    Base128.encode_of_lt (by omega), List.cons_append, List.cons_append, List.nil_append,
    parseTagAndWiretype_eq, UInt8.ofNat_toNat, if_pos hw]
  rfl

theorem foldlM_eq_none_of_mem {α σ : Type} {f : σ → α → Option σ} {a : α} {l : List α}
    (hin : a ∈ l) (h : ∀ s, f s a = none) (s : σ) : l.foldlM f s = none := by
  induction l generalizing s with
  | nil => exact absurd hin List.not_mem_nil
  | cons b l ih =>
    rw [List.foldlM_cons]
    obtain rfl | hin := List.mem_cons.mp hin
    · rw [h s]
      rfl
    · cases f s b with
      | none => rfl
      | some s' => exact ih hin s'

/-- The member is a message that is not read again. -/
def Member.isLost (descriptors : δ → MessageDescriptor δ) (type : FieldType δ)
    (member : Member δ) : Prop :=
  (∃ d, type = .message d) ∧ ((memberData descriptors member).length < 2 ^ 31 →
    ∀ (previous : Option (Member δ)) (id : UInt32), type.memberOf descriptors (decode descriptors)
      ⟨id, member.wireType, memberData descriptors member⟩ previous = none)

/-- Whatever is in the slot before. -/
theorem absorb_eq_none_of_message {descriptors : δ → MessageDescriptor δ}
    {field : FieldDescriptor δ} {member : Member δ} (h : member.isLost descriptors field.type)
    (hlt : (memberData descriptors member).length < 2 ^ 31) (slot : Slot δ) :
    field.absorb descriptors (decode descriptors) slot
      ⟨field.id, member.wireType, memberData descriptors member⟩ = none := by
  obtain ⟨⟨d, hd⟩, hnone⟩ := h
  cases slot with
  | single previous | flagged has previous =>
    rw [FieldDescriptor.absorb, hnone hlt]
    rfl
  | repeated members =>
    rw [FieldDescriptor.absorb, hnone hlt, hd]
    exact ite_self none

section

variable [DecidableEq δ] {descriptors : δ → MessageDescriptor δ}

/-- A message is not read again, when its unknown fields or one of its slots is not. -/
theorem decode_mk_eq_none {descriptor : δ} {slots : List (Slot δ)}
    {unknownFields : List UnknownField}
    (h : (Message.mk descriptor slots unknownFields).slotsAccepted descriptors = true)
    (hlt : ((Message.mk descriptor slots unknownFields).bytes descriptors).length < 2 ^ 31)
    (hbad : (∃ record ∈ unknownFields, record.tag = 0) ∨
      ∃ (i : ℕ) (field : FieldDescriptor δ) (slot : Slot δ),
        (descriptors descriptor).fields[i]? = some field ∧ slots[i]? = some slot ∧
        (slotRecords descriptors field slot).foldlM
          (field.absorb descriptors (decode descriptors)) field.init = none) :
    decode descriptors descriptor
      ((Message.mk descriptor slots unknownFields).bytes descriptors) = none := by
  rw [Message.slotsAccepted, Bool.and_eq_true] at h
  obtain ⟨hslots, hunknown⟩ := h
  have hscan : ∀ record ∈ unknownFields, scanData record.wireType record.data =
      some (record.data.length, record.prefixLen) ∧
        (descriptors descriptor).key record = none := by
    intro record hin
    have hrecord := List.all_eq_true.mp hunknown record hin
    rw [Bool.and_eq_true, decide_eq_true_eq, decide_eq_true_eq] at hrecord
    exact hrecord
  rw [Message.bytes] at hlt ⊢
  have hshort := length_data_lt hlt
  rw [Message.records] at hlt hshort ⊢
  have hknown : ∀ record ∈ slotsRecords descriptors (descriptors descriptor).fields slots,
      record.framed = true :=
    MessageDescriptor.framed_slotsRecords fun r hr => hshort r (List.mem_append_left _ hr)
  have hframed : ∀ record ∈ unknownFields, record.tag ≠ 0 → record.framed = true :=
    fun record hin htag => framed_of_scanData htag (hscan record hin).1
  rw [decode_eq, decodeFields]
  by_cases hzero : ∃ record ∈ unknownFields, record.tag = 0
  · have hitems : recordScanner.items ((slotsRecords descriptors (descriptors descriptor).fields
        slots ++ unknownFields).flatMap UnknownField.bytes) = none := by
      refine Scanner.items_eq_none_of_mem (fun record _ => bytes_ne_nil record)
        (fun record hin => ?_) ?_
      · obtain hmem | hmem := List.mem_append.mp hin
        · exact .inl fun rest => scanRecord_bytes (hknown record hmem) rest
        · by_cases htag : record.tag = 0
          · exact .inr fun rest => scanRecord_bytes_zero htag (hscan record hmem).1 rest
          · exact .inl fun rest => scanRecord_bytes (hframed record hmem htag) rest
      · obtain ⟨record, hin, htag⟩ := hzero
        exact ⟨record, List.mem_append_right _ hin,
          fun rest => scanRecord_bytes_zero htag (hscan record hin).1 rest⟩
    rw [hitems, Option.bind_none]
  · obtain ⟨i, field, slot, hfield, hslot, hnone⟩ := hbad.resolve_left hzero
    have hall : ∀ record ∈ slotsRecords descriptors (descriptors descriptor).fields slots ++
        unknownFields, record.framed = true := by
      intro record hin
      obtain hmem | hmem := List.mem_append.mp hin
      · exact hknown record hmem
      · exact hframed record hmem fun htag => hzero ⟨record, hmem, htag⟩
    rw [items_bytes hall, Option.bind_some, Option.eq_none_iff_forall_not_mem]
    intro message hmessage
    rw [decodeRecords] at hmessage
    split_ifs at hmessage with hlimits
    · obtain ⟨slots', hrun, -⟩ := Option.map_eq_some_iff.mp hmessage
      obtain ⟨hlength, -, hruns⟩ := Components.foldlM_eq_some_iff.mp hrun
      have hinit := MessageDescriptor.init_getElem? hfield
      have hfold := hruns i field.init hinit
      rw [MessageDescriptor.change_eq hfield, MessageDescriptor.events_slotsRecords hfield hslot
        fun record hin => (hscan record hin).2, hnone] at hfold
      have hlt' := (List.getElem?_eq_some_iff.mp hinit).1
      rw [← hlength] at hlt'
      rw [List.getElem?_eq_getElem hlt'] at hfold
      cases hfold
    · cases hmessage

mutual

/-- **A message with an unknown field that has the number 0** is not read again. -/
theorem decode_bytes_eq_none : ∀ (message : Message δ), message.accepted descriptors = true →
    (message.bytes descriptors).length < 2 ^ 31 → message.all Message.numbered = false →
    decode descriptors message.descriptor (message.bytes descriptors) = none
  | .mk descriptor slots unknownFields, h, hlt, hbad => by
    rw [Message.accepted, Message.all, Bool.and_eq_true] at h
    rw [Message.all, Bool.and_eq_false_iff] at hbad
    refine decode_mk_eq_none h.1 hlt (hbad.imp (fun hzero => ?_) fun hslots => ?_)
    · obtain ⟨record, hin, htag⟩ := List.all_eq_false.mp hzero
      rw [decide_eq_true_eq, not_not] at htag
      exact ⟨record, hin, htag⟩
    · rw [Message.slotsAccepted, Bool.and_eq_true] at h
      have hshort := length_data_lt hlt
      exact slots_eq_none slots (descriptors descriptor).fields h.1.1 h.2 hslots
        fun record hin => hshort record (List.mem_append_left _ hin)

theorem slots_eq_none : ∀ (slots : List (Slot δ)) (fields : List (FieldDescriptor δ)),
    slotsHold Slot.accepted fields slots = true →
    slotsAll (Message.slotsAccepted descriptors) slots = true →
    slotsAll Message.numbered slots = false →
    (∀ record ∈ slotsRecords descriptors fields slots, record.data.length < 2 ^ 31) →
    ∃ (i : ℕ) (field : FieldDescriptor δ) (slot : Slot δ), fields[i]? = some field ∧
      slots[i]? = some slot ∧ (slotRecords descriptors field slot).foldlM
        (field.absorb descriptors (decode descriptors)) field.init = none
  | [], _, _, _, hbad, _ => by cases hbad
  | _ :: _, [], h, _, _, _ => by cases h
  | slot :: slots, field :: fields, h, ha, hbad, hshort => by
    rw [slotsHold_cons] at h
    rw [slotsAll, Bool.and_eq_true] at ha
    rw [slotsAll, Bool.and_eq_false_iff] at hbad
    rw [slotsRecords] at hshort
    obtain hfirst | hothers := hbad
    · exact ⟨0, field, slot, rfl, rfl, slot_eq_none slot field h.1 ha.1 hfirst
        fun record hin => hshort record (List.mem_append_left _ hin)⟩
    · obtain ⟨i, f, s, hf, hs, hnone⟩ := slots_eq_none slots fields h.2 ha.2 hothers
        fun record hin => hshort record (List.mem_append_right _ hin)
      exact ⟨i + 1, f, s, hf, hs, hnone⟩

theorem slot_eq_none : ∀ (slot : Slot δ) (field : FieldDescriptor δ),
    slot.accepted field = true → slotAll (Message.slotsAccepted descriptors) slot = true →
    slotAll Message.numbered slot = false →
    (∀ record ∈ slotRecords descriptors field slot, record.data.length < 2 ^ 31) →
    (slotRecords descriptors field slot).foldlM
      (field.absorb descriptors (decode descriptors)) field.init = none
  | .single member, field, h, ha, hbad, hshort => by
    obtain ⟨-, htype⟩ := Slot.fits_single_iff.mp (Slot.accepted_iff.mp h).1
    obtain ⟨hpresent, hnone⟩ := member_eq_none member ha hbad
    rw [slotRecords, hpresent, Bool.or_true, if_pos rfl] at hshort ⊢
    rw [foldlM_singleton]
    exact absorb_eq_none_of_message (hnone htype) (hshort _ (List.mem_singleton_self _)) _
  | .flagged has member, field, h, ha, hbad, _ => by
    obtain ⟨⟨-, hflag⟩, htype⟩ := Slot.fits_flagged_iff.mp (Slot.accepted_iff.mp h).1
    obtain ⟨⟨d, hd⟩, -⟩ := (member_eq_none member ha hbad).2 htype
    rw [hd] at hflag
    cases hflag
  | .repeated members, field, h, ha, hbad, hshort => by
    obtain ⟨hlabel, htype⟩ := Slot.fits_repeated_iff.mp (Slot.accepted_iff.mp h).1
    obtain ⟨⟨d, hd⟩, hnone⟩ := members_eq_none members field htype ha hbad
    rw [slotRecords] at hshort ⊢
    split_ifs at hshort ⊢ with hpacked hempty
    · rw [List.isEmpty_iff.mp hempty] at hbad
      cases hbad
    · rw [foldlM_singleton, init_repeated hlabel, FieldDescriptor.absorb,
        if_pos (isPackedData_of_packed hpacked), hd]
      rfl
    · obtain ⟨record, hin, habsorb⟩ := hnone hshort
      exact foldlM_eq_none_of_mem hin habsorb _

theorem members_eq_none : ∀ (members : List (Member δ)) (field : FieldDescriptor δ),
    members.all (·.hasType field.type) = true →
    membersAll (Message.slotsAccepted descriptors) members = true →
    membersAll Message.numbered members = false →
    (∃ d, field.type = .message d) ∧
      ((∀ record ∈ membersRecords descriptors field members, record.data.length < 2 ^ 31) →
        ∃ record ∈ membersRecords descriptors field members, ∀ slot : Slot δ,
          field.absorb descriptors (decode descriptors) slot record = none)
  | [], _, _, _, hbad => by cases hbad
  | member :: members, field, ht, ha, hbad => by
    rw [List.all_cons, Bool.and_eq_true] at ht
    rw [membersAll, Bool.and_eq_true] at ha
    rw [membersAll, Bool.and_eq_false_iff] at hbad
    rw [membersRecords]
    obtain hfirst | hothers := hbad
    · have hnone := (member_eq_none member ha.1 hfirst).2 ht.1
      exact ⟨hnone.1, fun hshort => ⟨_, List.mem_cons_self,
        absorb_eq_none_of_message hnone (hshort _ List.mem_cons_self)⟩⟩
    · obtain ⟨hmessage, hnone⟩ := members_eq_none members field ht.2 ha.2 hothers
      refine ⟨hmessage, fun hshort => ?_⟩
      obtain ⟨record, hin, habsorb⟩ := hnone fun r hr => hshort r (List.mem_cons_of_mem _ hr)
      exact ⟨record, List.mem_cons_of_mem _ hin, habsorb⟩

theorem member_eq_none : ∀ (member : Member δ),
    memberAll (Message.slotsAccepted descriptors) member = true →
    memberAll Message.numbered member = false →
    member.present = true ∧ ∀ {type : FieldType δ}, member.hasType type = true →
      member.isLost descriptors type
  | .message (some sub), ha, hbad => by
    refine ⟨rfl, fun {type} htype => ?_⟩
    cases type with
    | message descriptor =>
      obtain rfl : sub.descriptor = descriptor := of_decide_eq_true htype
      refine ⟨⟨_, rfl⟩, fun hlt previous id => ?_⟩
      have hwire : (Member.message (some sub)).wireType = WireType.lengthPrefixed := rfl
      rw [memberAll] at ha hbad
      rw [memberData, ← Message.bytes] at hlt ⊢
      have hsub : (sub.bytes descriptors).length < 2 ^ 31 :=
        Nat.lt_of_le_of_lt (length_le_delimited _) hlt
      rw [FieldType.memberOf, if_pos hwire, hwire, payload_delimited hsub,
        decode_bytes_eq_none sub ha hsub hbad, Option.map_none]
    | scalar | string | bytes => cases htype
  | .message none, _, hbad => by cases hbad
  | .scalar _ _, _, hbad => by cases hbad
  | .string _, _, hbad => by cases hbad
  | .bytes _, _, hbad => by cases hbad

end

end

end Cebus.ProtobufC
