import Cebus.ProtobufC.MemberRoundTrip

/-!
# Messages that are written are read again

* `decode_bytes`: the bytes of a message mean the message, without the values of its
  optional fields that are not set.
-/

namespace Cebus.ProtobufC

variable {δ : Type}

/-! ## What is read again -/

/-- The member is filled with zeros. -/
def Member.cleared : Member δ → Member δ
  | .scalar type _ => .scalar type type.zero
  | .string _ => .string none
  | .bytes _ => .bytes []
  | .message _ => .message none

mutual

/-- A message without the values of its optional fields that are not set. -/
def Message.normal : Message δ → Message δ
  | .mk descriptor slots unknownFields => .mk descriptor (slotsNormal slots) unknownFields

/-- The slots as they are read again. -/
def slotsNormal : List (Slot δ) → List (Slot δ)
  | [] => []
  | slot :: slots => slotNormal slot :: slotsNormal slots

/-- A value without its flag is read as zero. -/
def slotNormal : Slot δ → Slot δ
  | .single member => .single (memberNormal member)
  | .flagged has member => .flagged has (if has then memberNormal member else member.cleared)
  | .repeated members => .repeated (membersNormal members)

/-- The elements as they are read again. -/
def membersNormal : List (Member δ) → List (Member δ)
  | [] => []
  | member :: members => memberNormal member :: membersNormal members

/-- A member with the message that it points to as that is read again. -/
def memberNormal : Member δ → Member δ
  | .message (some sub) => .message (some sub.normal)
  | member => member

end

section

variable (descriptors : δ → MessageDescriptor δ)

/-- There is room in the slabs for the records of the message, and its unknown fields can be
    told from what follows them and from its fields. -/
def Message.separate (message : Message δ) : Bool :=
  (message.records descriptors).length ≤ maxMembers &&
    message.unknownFields.all fun record =>
      record.framed && (descriptors message.descriptor).key record = none

/-- The records of a message and of those in it can be told apart. -/
def Message.readable (message : Message δ) : Bool := message.all (Message.separate descriptors)

end

/-! ## Records and their fields -/

section

variable {descriptors : δ → MessageDescriptor δ} {fields : List (FieldDescriptor δ)}
variable {slots : List (Slot δ)} {field : FieldDescriptor δ} {slot : Slot δ} {i : ℕ}

theorem slotsHold_cons {test : FieldDescriptor δ → Slot δ → Bool} :
    slotsHold test (field :: fields) (slot :: slots) = true ↔
      test field slot = true ∧ slotsHold test fields slots = true := by
  rw [slotsHold, Bool.and_eq_true]

theorem length_of_slotsHold {test : FieldDescriptor δ → Slot δ → Bool}
    (h : slotsHold test fields slots = true) : slots.length = fields.length := by
  induction fields generalizing slots with
  | nil =>
    cases slots with
    | nil => rfl
    | cons slot slots => cases h
  | cons field fields ih =>
    cases slots with
    | nil => cases h
    | cons slot slots => rw [List.length_cons, List.length_cons, ih (slotsHold_cons.mp h).2]

/-- The slot of a field. -/
theorem getElem?_of_slotsHold {test : FieldDescriptor δ → Slot δ → Bool}
    (h : slotsHold test fields slots = true) (hfield : fields[i]? = some field) :
    ∃ slot, slots[i]? = some slot ∧ test field slot = true := by
  induction fields generalizing slots i with
  | nil => rw [List.getElem?_nil] at hfield; cases hfield
  | cons first fields ih =>
    cases slots with
    | nil => cases h
    | cons slot slots =>
      rw [slotsHold_cons] at h
      cases i with
      | zero =>
        rw [List.getElem?_cons_zero] at hfield
        obtain rfl := Option.some.inj hfield
        exact ⟨slot, List.getElem?_cons_zero, h.1⟩
      | succ i =>
        rw [List.getElem?_cons_succ] at hfield ⊢
        exact ih h.2 hfield

/-- Every record of the slots is one of some field. -/
theorem exists_of_mem_slotsRecords {record : UnknownField}
    (h : record ∈ slotsRecords descriptors fields slots) :
    ∃ (i : ℕ) (field : FieldDescriptor δ) (slot : Slot δ), fields[i]? = some field ∧
      slots[i]? = some slot ∧ record ∈ slotRecords descriptors field slot := by
  induction fields generalizing slots with
  | nil => cases slots <;> cases h
  | cons field fields ih =>
    cases slots with
    | nil => cases h
    | cons slot slots =>
      rw [slotsRecords] at h
      obtain h | h := List.mem_append.mp h
      · exact ⟨0, field, slot, rfl, rfl, h⟩
      · obtain ⟨i, f, s, hf, hs, hrecord⟩ := ih h
        exact ⟨i + 1, f, s, hf, hs, hrecord⟩

theorem mem_slotsRecords {record : UnknownField} (hfield : fields[i]? = some field)
    (hslot : slots[i]? = some slot) (h : record ∈ slotRecords descriptors field slot) :
    record ∈ slotsRecords descriptors fields slots := by
  induction fields generalizing slots i with
  | nil => rw [List.getElem?_nil] at hfield; cases hfield
  | cons first fields ih =>
    cases slots with
    | nil => rw [List.getElem?_nil] at hslot; cases hslot
    | cons next slots =>
      rw [slotsRecords, List.mem_append]
      cases i with
      | zero =>
        obtain rfl := Option.some.inj hfield
        obtain rfl := Option.some.inj hslot
        exact .inl h
      | succ i => exact .inr (ih hfield hslot)

/-- The records with the number of a field are those of its slot. -/
theorem filter_slotsRecords (hid : ∀ field ∈ fields, field.id ≠ 0)
    (hsorted : (fieldNumbers fields).Pairwise (· < ·)) (hfield : fields[i]? = some field)
    (hslot : slots[i]? = some slot) :
    (slotsRecords descriptors fields slots).filter (fun record => record.tag = field.id) =
      slotRecords descriptors field slot := by
  induction fields generalizing slots i with
  | nil => rw [List.getElem?_nil] at hfield; cases hfield
  | cons first fields ih =>
    obtain ⟨hfirst, hothers⟩ := List.forall_mem_cons.mp hid
    obtain ⟨hlt, hpairwise⟩ := List.pairwise_cons.mp hsorted
    cases slots with
    | nil => rw [List.getElem?_nil] at hslot; cases hslot
    | cons next slots =>
      rw [slotsRecords, List.filter_append]
      cases i with
      | zero =>
        obtain rfl := Option.some.inj hfield
        obtain rfl := Option.some.inj hslot
        have hown : (slotRecords descriptors first next).filter
            (fun record => record.tag = first.id) = slotRecords descriptors first next :=
          List.filter_eq_self.mpr fun record hrecord =>
            decide_eq_true (slotRecords_framed hfirst next record hrecord).1
        have hother : (slotsRecords descriptors fields slots).filter
            (fun record => record.tag = first.id) = [] := by
          refine List.filter_eq_nil_iff.mpr fun record hrecord => ?_
          obtain ⟨j, f, s, hf, -, hmem⟩ := exists_of_mem_slotsRecords hrecord
          have hin := List.mem_of_getElem? hf
          have hne := hlt _ (List.mem_map_of_mem (f := fun f : FieldDescriptor δ =>
            (f.id.toNat : ℤ)) hin)
          rw [(slotRecords_framed (hothers f hin) s record hmem).1, decide_eq_true_eq]
          exact fun heq => absurd hne (heq ▸ lt_irrefl _)
        rw [hown, hother, List.append_nil]
      | succ i =>
        rw [List.getElem?_cons_succ] at hfield hslot
        have hin := List.mem_of_getElem? hfield
        have hne := hlt _ (List.mem_map_of_mem (f := fun f : FieldDescriptor δ =>
          (f.id.toNat : ℤ)) hin)
        have hother : (slotRecords descriptors first next).filter
            (fun record => record.tag = field.id) = [] := by
          refine List.filter_eq_nil_iff.mpr fun record hrecord => ?_
          rw [(slotRecords_framed hfirst next record hrecord).1, decide_eq_true_eq]
          exact fun heq => absurd hne (heq ▸ lt_irrefl _)
        rw [hother, List.nil_append, ih hothers hpairwise hfield hslot]

namespace MessageDescriptor

variable {desc : MessageDescriptor δ} {unknownFields : List UnknownField}

theorem id_ne_zero : ∀ field ∈ desc.fields, field.id ≠ 0 := by
  intro field hfield hzero
  have hnumber := desc.numbers field hfield
  rw [hzero] at hnumber
  exact absurd hnumber.1 (Nat.lt_irrefl 0)

theorem key_eq_iff {record : UnknownField} (hfield : desc.fields[i]? = some field) :
    desc.key record = some i ↔ record.tag = field.id := by
  rw [key, index_eq_some_iff]
  constructor
  · rintro ⟨f, hf, hid⟩
    rw [← hid, Option.some.inj (hf.symm.trans hfield)]
  · exact fun h => ⟨field, hfield, h.symm⟩

/-- The records of a field, among those of the message. -/
theorem events_slotsRecords (hfield : desc.fields[i]? = some field) (hslot : slots[i]? = some slot)
    (hunknown : ∀ record ∈ unknownFields, desc.key record = none) :
    Components.events desc.key i (slotsRecords descriptors desc.fields slots ++ unknownFields) =
      slotRecords descriptors field slot := by
  have hnone : Components.events desc.key i unknownFields = [] := by
    refine List.filter_eq_nil_iff.mpr fun record hrecord => ?_
    rw [hunknown record hrecord, decide_eq_true_eq]
    exact fun h => nomatch h
  have hkey : Components.events desc.key i (slotsRecords descriptors desc.fields slots) =
      (slotsRecords descriptors desc.fields slots).filter (fun record => record.tag = field.id) :=
    List.filter_congr fun record _ => decide_eq_decide.mpr (key_eq_iff hfield)
  rw [Components.events_append, hnone, List.append_nil, hkey,
    filter_slotsRecords id_ne_zero desc.sorted hfield hslot]

/-- Each record of the slots is of a field. -/
theorem key_of_mem_slotsRecords {record : UnknownField}
    (h : record ∈ slotsRecords descriptors desc.fields slots) :
    ∃ i field, desc.fields[i]? = some field ∧ desc.key record = some i := by
  obtain ⟨i, f, s, hf, -, hmem⟩ := exists_of_mem_slotsRecords h
  have hid := id_ne_zero f (List.mem_of_getElem? hf)
  exact ⟨i, f, hf, (key_eq_iff hf).mpr (slotRecords_framed hid s record hmem).1⟩

/-- The records of the slots can be told from what follows them. -/
theorem framed_slotsRecords
    (hshort : ∀ record ∈ slotsRecords descriptors desc.fields slots,
      record.data.length < 2 ^ 31) :
    ∀ record ∈ slotsRecords descriptors desc.fields slots, record.framed = true := by
  intro record hrecord
  obtain ⟨i, f, s, hf, -, hin⟩ := exists_of_mem_slotsRecords hrecord
  have hid := id_ne_zero f (List.mem_of_getElem? hf)
  exact (slotRecords_framed hid s record hin).2 (hshort record hrecord)

theorem change_eq {decode : δ → List UInt8 → Option (Message δ)}
    (hfield : desc.fields[i]? = some field) :
    desc.change descriptors decode i = field.absorb descriptors decode := by
  funext slot record
  rw [change, hfield, Option.bind_some]

theorem init_getElem? (hfield : desc.fields[i]? = some field) :
    (desc.fields.map FieldDescriptor.init)[i]? = some field.init := by
  rw [List.getElem?_map, hfield, Option.map_some]

/-- Only the unknown fields are kept as they are. -/
theorem unknown_slotsRecords (hunknown : ∀ record ∈ unknownFields, desc.key record = none) :
    desc.unknown (slotsRecords descriptors desc.fields slots ++ unknownFields) =
      unknownFields := by
  have hnone : (slotsRecords descriptors desc.fields slots).filter
      (fun record => desc.key record = none) = [] := by
    refine List.filter_eq_nil_iff.mpr fun record hrecord => ?_
    obtain ⟨i, -, -, hkey⟩ := key_of_mem_slotsRecords hrecord
    rw [hkey, decide_eq_true_eq]
    exact fun h => nomatch h
  rw [unknown, List.filter_append, hnone, List.nil_append]
  exact List.filter_eq_self.mpr fun record hrecord => decide_eq_true (hunknown record hrecord)

/-- There is a record for each required field. -/
theorem complete_slotsRecords [DecidableEq δ]
    (hslots : slotsHold Slot.valid desc.fields slots = true) :
    desc.complete (slotsRecords descriptors desc.fields slots ++ unknownFields) = true := by
  refine List.all_eq_true.mpr fun field hfield => ?_
  by_cases hlabel : field.label = .required
  · obtain ⟨i, hi⟩ := List.getElem?_of_mem hfield
    obtain ⟨slot, hslot, hvalid⟩ := getElem?_of_slotsHold hslots hi
    have hrecord : ∃ record ∈ slotRecords descriptors field slot, record.tag = field.id := by
      cases slot with
      | single member =>
        rw [slotRecords, hlabel, decide_eq_true rfl, Bool.true_or, if_pos rfl]
        exact ⟨_, List.mem_singleton_self _, rfl⟩
      | flagged has member => simp [Slot.valid, Slot.fits, hlabel] at hvalid
      | repeated members => simp [Slot.valid, Slot.fits, hlabel] at hvalid
    obtain ⟨record, hmem, htag⟩ := hrecord
    rw [hlabel, Bool.or_eq_true]
    refine .inr (List.any_eq_true.mpr ⟨record, ?_, decide_eq_true htag⟩)
    exact List.mem_append_left _ (mem_slotsRecords hi hslot hmem)
  · rw [decide_eq_true hlabel, Bool.true_or]

end MessageDescriptor

end

/-! ## Reading a message -/

theorem slotsNormal_eq (slots : List (Slot δ)) : slotsNormal slots = slots.map slotNormal := by
  induction slots with
  | nil => rfl
  | cons slot slots ih => rw [slotsNormal, ih, List.map_cons]

theorem length_data_lt {records : List UnknownField} {n : ℕ}
    (h : (records.flatMap UnknownField.bytes).length < n) :
    ∀ record ∈ records, record.data.length < n := by
  intro record hrecord
  have hle : record.bytes.length ≤ (records.flatMap UnknownField.bytes).length := by
    rw [List.length_flatMap]
    exact List.single_le_sum (fun _ _ => Nat.zero_le _) _ (List.mem_map_of_mem hrecord)
  rw [UnknownField.length_bytes] at hle
  omega

theorem copiedString_bytes (str : CString) : copiedString str.bytes = str := by
  obtain ⟨bytes, hbytes⟩ := str
  have htake : bytes.takeWhile (· ≠ 0) = bytes :=
    List.takeWhile_eq_self_iff.mpr fun b hb => decide_eq_true fun h => hbytes (h ▸ hb)
  simp only [copiedString, htake]

/-- A pointer that is NULL is filled with zeros. -/
theorem normal_of_not_present {member : Member δ} (h : member.present = false) :
    memberNormal member = member.cleared := by
  cases member with
  | scalar | bytes => cases h
  | string str =>
    cases str with
    | none => rfl
    | some str => cases h
  | message sub =>
    cases sub with
    | none => rfl
    | some sub => cases h

section

variable {descriptors : δ → MessageDescriptor δ} {field : FieldDescriptor δ}

/-- There is no earlier message in memory that is filled with zeros. -/
theorem takeOver_zero (type : FieldType δ) (sub : Message δ) :
    takeOver descriptors (some type.zero) sub = sub := by
  cases type <;> rfl

theorem init_required (h : field.label = .required) : field.init = .single field.type.zero := by
  rw [FieldDescriptor.init, h]

theorem init_optional (h : field.label = .optional) :
    field.init = if field.type.hasFlag then .flagged false field.type.zero
      else .single field.type.zero := by
  rw [FieldDescriptor.init, h]

theorem init_repeated (h : field.label = .repeated) : field.init = .repeated [] := by
  rw [FieldDescriptor.init, h]

theorem isPackedData_of_packed (h : field.packed = true) :
    field.isPackedData WireType.lengthPrefixed = true := by
  rw [FieldDescriptor.isPackedData, h, decide_eq_true rfl, Bool.true_or, Bool.and_self]

theorem foldlM_singleton {α σ : Type} (f : σ → α → Option σ) (s : σ) (a : α) :
    [a].foldlM f s = f s a := by
  rw [List.foldlM_cons]
  cases f s a <;> rfl

end

section

variable [DecidableEq δ] {field : FieldDescriptor δ} {type : FieldType δ} {member : Member δ}

theorem cleared_eq (h : member.hasType type = true) : member.cleared = type.zero := by
  cases type with
  | scalar type =>
    cases member with
    | scalar type' value => obtain rfl : type' = type := of_decide_eq_true h; rfl
    | string | bytes => cases h
    | message sub => cases sub <;> cases h
  | string =>
    cases member with
    | string => rfl
    | scalar | bytes => cases h
    | message sub => cases sub <;> cases h
  | bytes =>
    cases member with
    | bytes => rfl
    | scalar | string => cases h
    | message sub => cases sub <;> cases h
  | message =>
    cases member with
    | message => rfl
    | scalar | string | bytes => cases h

theorem present_of_hasFlag (hflag : type.hasFlag = true) (h : member.hasType type = true) :
    member.present = true := by
  cases type with
  | scalar | bytes =>
    cases member with
    | scalar | bytes => rfl
    | string => cases h
    | message sub => cases sub <;> cases h
  | string | message => cases hflag

/-- What a valid message has for a field that is no array. -/
theorem Slot.valid_single (h : (Slot.single member).valid field = true) :
    field.init = .single field.type.zero ∧ member.hasType field.type = true ∧
      (field.label = .required → member.present = true) := by
  rw [Slot.valid, Slot.fits, Slot.checked, Bool.and_eq_true, Bool.and_eq_true, Bool.or_eq_true,
    Bool.and_eq_true, Bool.or_eq_true] at h
  simp only [decide_eq_true_eq, Bool.not_eq_true'] at h
  obtain ⟨⟨hlabel, htype⟩, hpresent⟩ := h
  refine ⟨?_, htype, fun hreq => hpresent.resolve_left (not_not.mpr hreq)⟩
  obtain hreq | ⟨hopt, hflag⟩ := hlabel
  · exact init_required hreq
  · rw [init_optional hopt, hflag]
    rfl

theorem Slot.valid_flagged {has : Bool} (h : (Slot.flagged has member).valid field = true) :
    field.init = .flagged false field.type.zero ∧ member.hasType field.type = true ∧
      member.present = true := by
  rw [Slot.valid, Slot.fits, Bool.and_eq_true, Bool.and_eq_true, Bool.and_eq_true,
    decide_eq_true_eq] at h
  obtain ⟨⟨⟨hopt, hflag⟩, htype⟩, -⟩ := h
  refine ⟨?_, htype, present_of_hasFlag hflag htype⟩
  rw [init_optional hopt, hflag]
  rfl

/-- A member that is no array of numbers is not taken for one. -/
theorem isPackedData_wireType (hpacked : field.packed = false)
    (h : member.hasType field.type = true) : field.isPackedData member.wireType = false := by
  rw [FieldDescriptor.isPackedData, hpacked, Bool.false_or, Bool.and_eq_false_iff]
  cases member with
  | scalar type value => exact .inl (decide_eq_false type.wireType_ne)
  | string | bytes =>
    refine .inr ?_
    cases hp : field.type.isPackable with
    | false => rfl
    | true => obtain ⟨scalar, value, -, hmember⟩ := Member.isScalar hp h; cases hmember
  | message sub =>
    refine .inr ?_
    cases hp : field.type.isPackable with
    | false => rfl
    | true => obtain ⟨scalar, value, -, hmember⟩ := Member.isScalar hp h; cases hmember

/-- The numbers of a packed array are as they were. -/
theorem membersNormal_of_packable {members : List (Member δ)} (hp : type.isPackable = true)
    (ht : members.all (·.hasType type) = true) : membersNormal members = members := by
  induction members with
  | nil => rfl
  | cons member members ih =>
    rw [List.all_cons, Bool.and_eq_true] at ht
    obtain ⟨scalar, value, -, rfl⟩ := Member.isScalar hp ht.1
    rw [membersNormal, ih ht.2]
    rfl

end

section

variable [DecidableEq δ] (descriptors : δ → MessageDescriptor δ)

/-- A message is read again, when its slots are. -/
theorem decode_mk {descriptor : δ} {slots : List (Slot δ)} {unknownFields : List UnknownField}
    (hslots : slotsHold Slot.valid (descriptors descriptor).fields slots = true)
    (hseparate : (Message.mk descriptor slots unknownFields).separate descriptors = true)
    (hlt : ((Message.mk descriptor slots unknownFields).bytes descriptors).length < 2 ^ 31)
    (hread : ∀ (field : FieldDescriptor δ) (slot : Slot δ), slot ∈ slots →
      slot.valid field = true → (field.packed = true → field.type.isPackable = true) →
      (∀ record ∈ slotRecords descriptors field slot, record.data.length < 2 ^ 31) →
      (slotRecords descriptors field slot).foldlM
        (field.absorb descriptors (decode descriptors)) field.init = some (slotNormal slot)) :
    decode descriptors descriptor ((Message.mk descriptor slots unknownFields).bytes descriptors) =
      some (.mk descriptor (slotsNormal slots) unknownFields) := by
  rw [Message.separate, Bool.and_eq_true, decide_eq_true_eq, List.all_eq_true] at hseparate
  obtain ⟨hroom, hunknown⟩ := hseparate
  have hapart : ∀ record ∈ unknownFields,
      record.framed = true ∧ (descriptors descriptor).key record = none := by
    intro record hrecord
    have hboth := hunknown record hrecord
    rw [Bool.and_eq_true, decide_eq_true_eq] at hboth
    exact hboth
  have hkey : ∀ record ∈ unknownFields, (descriptors descriptor).key record = none :=
    fun record hrecord => (hapart record hrecord).2
  rw [Message.bytes] at hlt ⊢
  have hshort := length_data_lt hlt
  rw [Message.records] at hroom hlt hshort ⊢
  have hframed : ∀ record ∈ slotsRecords descriptors (descriptors descriptor).fields slots ++
      unknownFields, record.framed = true := by
    intro record hrecord
    obtain hmem | hmem := List.mem_append.mp hrecord
    · exact MessageDescriptor.framed_slotsRecords
        (fun r hr => hshort r (List.mem_append_left _ hr)) record hmem
    · exact (hapart record hmem).1
  have hitems := items_bytes hframed
  have hrun : (slotsRecords descriptors (descriptors descriptor).fields slots ++
      unknownFields).foldlM (Components.step (descriptors descriptor).key
        ((descriptors descriptor).change descriptors (decode descriptors)))
      ((descriptors descriptor).fields.map FieldDescriptor.init) = some (slotsNormal slots) := by
    rw [Components.foldlM_eq_some_iff]
    refine ⟨?_, fun record _ i hi => ?_, fun i s hs => ?_⟩
    · rw [slotsNormal_eq, List.length_map, List.length_map, length_of_slotsHold hslots]
    · obtain ⟨f, hf, -⟩ := (descriptors descriptor).index_eq_some_iff.mp hi
      rw [List.length_map]
      exact (List.getElem?_eq_some_iff.mp hf).1
    · rw [List.getElem?_map, Option.map_eq_some_iff] at hs
      obtain ⟨field, hfield, rfl⟩ := hs
      obtain ⟨slot, hslot, hvalid⟩ := getElem?_of_slotsHold hslots hfield
      rw [MessageDescriptor.events_slotsRecords hfield hslot hkey,
        MessageDescriptor.change_eq hfield, hread field slot (List.mem_of_getElem? hslot) hvalid
          (fun h => ((descriptors descriptor).packed field (List.mem_of_getElem? hfield) h).2)
          fun record hrecord => hshort record
            (List.mem_append_left _ (mem_slotsRecords hfield hslot hrecord)),
        slotsNormal_eq, List.getElem?_map, hslot, Option.map_some]
  rw [decode_eq, decodeFields, hitems, Option.bind_some, decodeRecords,
    if_pos ⟨hroom, MessageDescriptor.complete_slotsRecords hslots⟩, hrun, Option.map_some,
    MessageDescriptor.unknown_slotsRecords hkey]

mutual

/-- **The bytes of a message mean the message.** -/
theorem decode_bytes : ∀ (message : Message δ), message.valid descriptors = true →
    message.readable descriptors = true → (message.bytes descriptors).length < 2 ^ 31 →
    decode descriptors message.descriptor (message.bytes descriptors) = some message.normal
  | .mk descriptor slots unknownFields, hv, hr, hlt => by
    rw [Message.valid, Message.all, Bool.and_eq_true] at hv
    rw [Message.readable, Message.all, Bool.and_eq_true] at hr
    exact decode_mk descriptors hv.1 hr.1 hlt (slots_decoded slots hv.2 hr.2)

theorem slots_decoded : ∀ (slots : List (Slot δ)),
    slotsAll (Message.slotsValid descriptors) slots = true →
    slotsAll (Message.separate descriptors) slots = true →
    ∀ (field : FieldDescriptor δ) (slot : Slot δ), slot ∈ slots →
      slot.valid field = true → (field.packed = true → field.type.isPackable = true) →
      (∀ record ∈ slotRecords descriptors field slot, record.data.length < 2 ^ 31) →
      (slotRecords descriptors field slot).foldlM
        (field.absorb descriptors (decode descriptors)) field.init = some (slotNormal slot)
  | [], _, _ => fun _ _ hin => absurd hin List.not_mem_nil
  | slot :: slots, ha, hr => by
    rw [slotsAll, Bool.and_eq_true] at ha hr
    intro field s hin hv hp hshort
    obtain heq | hin := List.mem_cons.mp hin
    · rw [heq] at hv hshort ⊢
      exact slot_decoded slot ha.1 hr.1 field hv hp hshort
    · exact slots_decoded slots ha.2 hr.2 field s hin hv hp hshort

theorem slot_decoded : ∀ (slot : Slot δ), slotAll (Message.slotsValid descriptors) slot = true →
    slotAll (Message.separate descriptors) slot = true → ∀ (field : FieldDescriptor δ),
    slot.valid field = true → (field.packed = true → field.type.isPackable = true) →
    (∀ record ∈ slotRecords descriptors field slot, record.data.length < 2 ^ 31) →
    (slotRecords descriptors field slot).foldlM
      (field.absorb descriptors (decode descriptors)) field.init = some (slotNormal slot)
  | .single member, ha, hr, field, hv, _, hshort => by
    obtain ⟨hinit, htype, hpresent⟩ := Slot.valid_single hv
    rw [slotRecords] at hshort ⊢
    rw [hinit, slotNormal]
    split_ifs at hshort ⊢ with hthere
    · have hmember : member.present = true := by
        rw [Bool.or_eq_true, decide_eq_true_eq] at hthere
        exact hthere.elim hpresent id
      rw [foldlM_singleton, FieldDescriptor.absorb, member_decoded member ha hr htype hmember
        (hshort _ (List.mem_singleton_self _)) (takeOver_zero field.type)]
      rfl
    · have hnull := Bool.eq_false_iff.mpr fun h => hthere (Bool.or_eq_true _ _ ▸ .inr h)
      rw [normal_of_not_present hnull, cleared_eq htype]
      rfl
  | .flagged has member, ha, hr, field, hv, _, hshort => by
    obtain ⟨hinit, htype, hpresent⟩ := Slot.valid_flagged hv
    rw [slotRecords] at hshort ⊢
    rw [hinit, slotNormal]
    cases has with
    | true =>
      rw [if_pos rfl] at hshort ⊢
      rw [foldlM_singleton, FieldDescriptor.absorb, member_decoded member ha hr htype hpresent
        (hshort _ (List.mem_singleton_self _)) (takeOver_zero field.type)]
      rfl
    | false =>
      rw [if_neg Bool.false_ne_true, if_neg Bool.false_ne_true, cleared_eq htype]
      rfl
  | .repeated members, ha, hr, field, hv, hp, hshort => by
    obtain ⟨htype, hpresent⟩ := Slot.valid_repeated hv
    have hlabel : field.label = .repeated := by
      rw [Slot.valid, Slot.fits, Bool.and_eq_true, Bool.and_eq_true, decide_eq_true_eq] at hv
      exact hv.1.1
    rw [slotRecords] at hshort ⊢
    rw [init_repeated hlabel, slotNormal]
    split_ifs at hshort ⊢ with hpacked hempty
    · rw [List.isEmpty_iff.mp hempty, membersNormal]
      rfl
    · have hlt := hshort _ (List.mem_singleton_self _)
      rw [foldlM_singleton, FieldDescriptor.absorb, if_pos (isPackedData_of_packed hpacked),
        payload_delimited (Nat.lt_of_le_of_lt (length_le_delimited _) hlt),
        arrayOf_elements (hp hpacked) htype, membersNormal_of_packable (hp hpacked) htype]
      rfl
    · exact members_decoded members ha hr field (Bool.eq_false_iff.mpr hpacked) htype hpresent
        hshort []

theorem members_decoded : ∀ (members : List (Member δ)),
    membersAll (Message.slotsValid descriptors) members = true →
    membersAll (Message.separate descriptors) members = true → ∀ (field : FieldDescriptor δ),
    field.packed = false → members.all (·.hasType field.type) = true →
    members.all Member.present = true →
    (∀ record ∈ membersRecords descriptors field members, record.data.length < 2 ^ 31) →
    ∀ earlier : List (Member δ), (membersRecords descriptors field members).foldlM
      (field.absorb descriptors (decode descriptors)) (.repeated earlier) =
        some (.repeated (earlier ++ membersNormal members))
  | [], _, _, _, _, _, _, _, earlier => by
    rw [membersNormal, List.append_nil]
    rfl
  | member :: members, ha, hr, field, hpacked, ht, hv, hshort, earlier => by
    rw [membersAll, Bool.and_eq_true] at ha hr
    rw [List.all_cons, Bool.and_eq_true] at ht hv
    rw [membersRecords] at hshort ⊢
    obtain ⟨hfirst, hothers⟩ := List.forall_mem_cons.mp hshort
    have habsorb : field.absorb descriptors (decode descriptors) (.repeated earlier)
        ⟨field.id, member.wireType, memberData descriptors member⟩ =
          some (.repeated (earlier ++ [memberNormal member])) := by
      rw [FieldDescriptor.absorb, isPackedData_wireType hpacked ht.1, if_neg Bool.false_ne_true,
        member_decoded member ha.1 hr.1 ht.1 hv.1 hfirst fun _ => rfl]
      rfl
    have hrest := members_decoded members ha.2 hr.2 field hpacked ht.2 hv.2 hothers
      (earlier ++ [memberNormal member])
    rw [← List.append_cons] at hrest
    rw [List.foldlM_cons, habsorb, membersNormal]
    exact hrest

theorem member_decoded : ∀ (member : Member δ),
    memberAll (Message.slotsValid descriptors) member = true →
    memberAll (Message.separate descriptors) member = true → ∀ {type : FieldType δ},
    member.hasType type = true → member.present = true →
    (memberData descriptors member).length < 2 ^ 31 → ∀ {previous : Option (Member δ)},
    (∀ sub, takeOver descriptors previous sub = sub) → ∀ {id : UInt32},
    type.memberOf descriptors (decode descriptors)
      ⟨id, member.wireType, memberData descriptors member⟩ previous = some (memberNormal member)
  | .scalar scalar value, _, _, type, htype, _, _, previous, _, id => by
    cases type with
    | scalar scalar' =>
      obtain rfl : scalar = scalar' := of_decide_eq_true htype
      rw [FieldType.memberOf, Member.wireType, if_pos scalar.accepts_wireType, memberData,
        scalar.parseValue_pack]
      rfl
    | string | bytes | message => cases htype
  | .string none, _, _, _, _, hpresent, _, _, _, _ => by cases hpresent
  | .string (some str), _, _, type, htype, _, hlt, previous, _, id => by
    cases type with
    | string =>
      have hwire : (Member.string (some str) : Member δ).wireType = WireType.lengthPrefixed := rfl
      rw [memberData] at hlt ⊢
      rw [FieldType.memberOf, if_pos hwire, hwire,
        payload_delimited (Nat.lt_of_le_of_lt (length_le_delimited _) hlt), copiedString_bytes]
      rfl
    | scalar | bytes | message => cases htype
  | .bytes data, _, _, type, htype, _, hlt, previous, _, id => by
    cases type with
    | bytes =>
      have hwire : (Member.bytes data : Member δ).wireType = WireType.lengthPrefixed := rfl
      rw [memberData] at hlt ⊢
      rw [FieldType.memberOf, if_pos hwire, hwire,
        payload_delimited (Nat.lt_of_le_of_lt (length_le_delimited _) hlt)]
      rfl
    | scalar | string | message => cases htype
  | .message none, _, _, _, _, hpresent, _, _, _, _ => by cases hpresent
  | .message (some sub), ha, hr, type, htype, _, hlt, previous, hprevious, id => by
    cases type with
    | message descriptor =>
      obtain rfl : sub.descriptor = descriptor := of_decide_eq_true htype
      have hwire : (Member.message (some sub)).wireType = WireType.lengthPrefixed := rfl
      rw [memberAll] at ha hr
      rw [memberData, ← Message.bytes] at hlt ⊢
      have hsub : (sub.bytes descriptors).length < 2 ^ 31 :=
        Nat.lt_of_le_of_lt (length_le_delimited _) hlt
      rw [FieldType.memberOf, if_pos hwire, hwire, payload_delimited hsub,
        decode_bytes sub ha hr hsub, Option.map_some, hprevious, memberNormal]
    | scalar | string | bytes => cases htype

end

end

end Cebus.ProtobufC
