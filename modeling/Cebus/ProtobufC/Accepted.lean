import Cebus.ProtobufC.RoundTrip

/-!
# What is accepted

A message that bytes mean is laid out as its descriptor says and passes
`protobuf_c_message_check`, and so do the messages in it, also those that are merged.

* `mergeMessages_accepted`: merging keeps messages well-formed.
* `decode_accepted`: what holds of every message that is decoded.
-/

namespace Cebus.ProtobufC

variable {δ : Type}

/-! ## Well-formed slots -/

instance : (type : ScalarType) → DecidableEq type.Carrier
  | .int32 | .sint32 | .sfixed32 | .uint32 | .fixed32 | .float | .enum =>
    inferInstanceAs (DecidableEq UInt32)
  | .int64 | .sint64 | .sfixed64 | .uint64 | .fixed64 | .double =>
    inferInstanceAs (DecidableEq UInt64)
  | .bool => inferInstanceAs (DecidableEq Bool)

/-- A member whose flag is not set is filled with zeros, and no element of an array is NULL. -/
def Slot.settled : Slot δ → Bool
  | .flagged false (.scalar type value) => value = type.zero
  | .flagged false (.bytes data) => data.isEmpty
  | .repeated members => members.all Member.present
  | _ => true

section

variable [DecidableEq δ] (descriptors : δ → MessageDescriptor δ)

/-- What is in a slot while its message is parsed. -/
def Slot.sound (field : FieldDescriptor δ) (slot : Slot δ) : Bool :=
  slot.fits field && slot.settled

/-- What is in a slot of a message that has been parsed. -/
def Slot.accepted (field : FieldDescriptor δ) (slot : Slot δ) : Bool :=
  slot.sound field && slot.checked field

/-- The slots are those of a message that has been parsed, and its unknown fields are records
    with numbers that are not those of its fields. -/
def Message.slotsAccepted (message : Message δ) : Bool :=
  slotsHold Slot.accepted (descriptors message.descriptor).fields message.slots &&
    message.unknownFields.all fun record =>
      (scanData record.wireType record.data = some (record.data.length, record.prefixLen)) &&
        (descriptors message.descriptor).key record = none

/-- A message that has been parsed. -/
def Message.accepted (message : Message δ) : Bool :=
  message.all (Message.slotsAccepted descriptors)

end

section

variable {field : FieldDescriptor δ} {member : Member δ} {has : Bool}

theorem Slot.checked_single_iff : (Slot.single member).checked field = true ↔
    (field.label = .required → member.present = true) := by
  rw [Slot.checked, Bool.or_eq_true, decide_eq_true_eq]
  exact ⟨fun h hreq => h.resolve_left (not_not.mpr hreq),
    fun h => (em (field.label = .required)).elim (fun hreq => .inr (h hreq)) .inl⟩

variable [DecidableEq δ]

theorem Slot.accepted_iff {slot : Slot δ} :
    slot.accepted field = true ↔
      slot.fits field = true ∧ slot.settled = true ∧ slot.checked field = true := by
  rw [Slot.accepted, Slot.sound, Bool.and_eq_true, Bool.and_eq_true, and_assoc]

theorem Slot.fits_single_iff : (Slot.single member).fits field = true ↔
    (field.label = .required ∨ field.label = .optional ∧ field.type.hasFlag = false) ∧
      member.hasType field.type = true := by
  rw [Slot.fits, Bool.and_eq_true, Bool.or_eq_true, Bool.and_eq_true, decide_eq_true_eq,
    decide_eq_true_eq, Bool.not_eq_true']

theorem Slot.fits_flagged_iff : (Slot.flagged has member).fits field = true ↔
    (field.label = .optional ∧ field.type.hasFlag = true) ∧ member.hasType field.type = true := by
  rw [Slot.fits, Bool.and_eq_true, Bool.and_eq_true, decide_eq_true_eq]

theorem Slot.fits_repeated_iff {members : List (Member δ)} :
    (Slot.repeated members).fits field = true ↔
      field.label = .repeated ∧ members.all (·.hasType field.type) = true := by
  rw [Slot.fits, Bool.and_eq_true, decide_eq_true_eq]

end

/-! ## Merging keeps messages well-formed -/

section

variable (descriptors : δ → MessageDescriptor δ)

theorem descriptor_mergeMessages (earlier latter : Message δ) :
    (mergeMessages descriptors earlier latter).descriptor = latter.descriptor := by
  cases earlier
  cases latter
  rw [mergeMessages]
  rfl

theorem membersAll_append (test : Message δ → Bool) (members more : List (Member δ)) :
    membersAll test (members ++ more) = (membersAll test members && membersAll test more) := by
  induction members with
  | nil => rw [List.nil_append, membersAll, Bool.true_and]
  | cons member members ih => rw [List.cons_append, membersAll, membersAll, ih, Bool.and_assoc]

/-- One of two members is taken. -/
theorem orEarlier_cases (earlier latter : Member δ) :
    earlier.orEarlier latter = earlier ∨ earlier.orEarlier latter = latter := by
  unfold Member.orEarlier
  split
  · exact .inl rfl
  · exact .inl rfl
  · exact .inr rfl

/-- One of two members with flags is taken, together with its flag. -/
theorem mergeSlot_flagged (field : FieldDescriptor δ) (has has' : Bool)
    (earlier latter : Member δ) :
    mergeSlot descriptors field (.flagged has earlier) (.flagged has' latter) =
        .flagged has earlier ∨
      mergeSlot descriptors field (.flagged has earlier) (.flagged has' latter) =
        .flagged has' latter := by
  have hite {c : Prop} [Decidable c] (x y : Slot δ) :
      (if c then x else y) = x ∨ (if c then x else y) = y := by
    split_ifs
    · exact .inl rfl
    · exact .inr rfl
  cases earlier with
  | bytes earlier =>
    cases latter with
    | bytes latter => simpa only [mergeSlot] using hite _ _
    | scalar | string | message => simpa only [mergeSlot] using hite _ _
  | scalar | string | message => simpa only [mergeSlot] using hite _ _

end

section

variable [DecidableEq δ] (descriptors : δ → MessageDescriptor δ)

/-- A member that is of a type and whose message has been parsed. -/
def Member.parsed (type : FieldType δ) (member : Member δ) : Prop :=
  member.hasType type = true ∧ memberAll (Message.slotsAccepted descriptors) member = true

/-- A slot that is right for its field and whose messages have been parsed. -/
def Slot.parsed (field : FieldDescriptor δ) (slot : Slot δ) : Prop :=
  slot.accepted field = true ∧ slotAll (Message.slotsAccepted descriptors) slot = true

variable {descriptors}

theorem orEarlier_parsed {type : FieldType δ} {earlier latter : Member δ}
    (he : earlier.parsed descriptors type) (hl : latter.parsed descriptors type) :
    (earlier.orEarlier latter).parsed descriptors type := by
  obtain h | h := orEarlier_cases earlier latter
  · rwa [h]
  · rwa [h]

theorem parsed_single {field : FieldDescriptor δ} {member : Member δ}
    (h : (Slot.single member).parsed descriptors field) :
    (field.label = .required ∨ field.label = .optional ∧ field.type.hasFlag = false) ∧
      member.parsed descriptors field.type := by
  have hfits := Slot.fits_single_iff.mp (Slot.accepted_iff.mp h.1).1
  exact ⟨hfits.1, hfits.2, h.2⟩

mutual

theorem mergeMessages_accepted : ∀ (earlier latter : Message δ),
    earlier.descriptor = latter.descriptor → earlier.accepted descriptors = true →
    latter.accepted descriptors = true →
    (mergeMessages descriptors earlier latter).accepted descriptors = true
  | .mk d earlier u, .mk d' latter u', hd, he, hl => by
    obtain rfl : d = d' := hd
    rw [Message.accepted, Message.all, Bool.and_eq_true, Message.slotsAccepted, Bool.and_eq_true]
      at he hl
    obtain ⟨⟨hearlier, -⟩, hin⟩ := he
    obtain ⟨⟨hlatter, hunknown⟩, hin'⟩ := hl
    obtain ⟨hslots, hmerged⟩ :=
      mergeSlots_accepted earlier latter (descriptors d).fields hearlier hin hlatter hin'
    rw [mergeMessages, Message.accepted, Message.all, Bool.and_eq_true, Message.slotsAccepted,
      Bool.and_eq_true]
    exact ⟨⟨hslots, hunknown⟩, hmerged⟩

theorem mergeSlots_accepted : ∀ (earlier latter : List (Slot δ))
    (fields : List (FieldDescriptor δ)),
    slotsHold Slot.accepted fields earlier = true →
    slotsAll (Message.slotsAccepted descriptors) earlier = true →
    slotsHold Slot.accepted fields latter = true →
    slotsAll (Message.slotsAccepted descriptors) latter = true →
    slotsHold Slot.accepted fields (mergeSlots descriptors fields earlier latter) = true ∧
      slotsAll (Message.slotsAccepted descriptors)
        (mergeSlots descriptors fields earlier latter) = true
  | _, [], [], _, _, _, _ => by
    rw [mergeSlots.eq_def]
    exact ⟨rfl, rfl⟩
  | [], _ :: _, _, he, _, hl, _ => by
    cases ‹List (FieldDescriptor δ)› with
    | nil => cases hl
    | cons => cases he
  | _, _ :: _, [], _, _, hl, _ => by cases hl
  | _, [], _ :: _, _, _, hl, _ => by cases hl
  | e :: earlier, l :: latter, field :: fields, he, ha, hl, hb => by
    rw [slotsHold_cons] at he hl
    rw [slotsAll, Bool.and_eq_true] at ha hb
    obtain ⟨hfirst, hin⟩ := mergeSlot_accepted e l field ⟨he.1, ha.1⟩ ⟨hl.1, hb.1⟩
    obtain ⟨hothers, hins⟩ := mergeSlots_accepted earlier latter fields he.2 ha.2 hl.2 hb.2
    rw [mergeSlots, slotsHold_cons, slotsAll, Bool.and_eq_true]
    exact ⟨⟨hfirst, hothers⟩, hin, hins⟩

theorem mergeSlot_accepted : ∀ (earlier latter : Slot δ) (field : FieldDescriptor δ),
    earlier.parsed descriptors field → latter.parsed descriptors field →
    (mergeSlot descriptors field earlier latter).parsed descriptors field
  | .single earlier, .single latter, field, he, hl => by
    rw [mergeSlot]
    split_ifs with hreq
    · exact hl
    · obtain ⟨hlabel, hmember⟩ := parsed_single he
      have hmerge := mergeMember_accepted earlier latter field.type hmember (parsed_single hl).2
      refine ⟨Slot.accepted_iff.mpr ⟨Slot.fits_single_iff.mpr ⟨hlabel, hmerge.1⟩, rfl, ?_⟩,
        hmerge.2⟩
      exact Slot.checked_single_iff.mpr fun h => absurd h hreq
  | .repeated earlier, .repeated latter, field, he, hl => by
    obtain ⟨hfits, hpresent, -⟩ := Slot.accepted_iff.mp he.1
    obtain ⟨hfits', hpresent', -⟩ := Slot.accepted_iff.mp hl.1
    rw [Slot.fits_repeated_iff] at hfits hfits'
    have hboth : (earlier ++ latter).all Member.present = true := by
      rw [List.all_append, Bool.and_eq_true]
      exact ⟨hpresent, hpresent'⟩
    rw [mergeSlot]
    refine ⟨Slot.accepted_iff.mpr ⟨Slot.fits_repeated_iff.mpr ⟨hfits.1, ?_⟩, hboth, hboth⟩, ?_⟩
    · rw [List.all_append, Bool.and_eq_true]
      exact ⟨hfits.2, hfits'.2⟩
    · rw [slotAll, membersAll_append, Bool.and_eq_true]
      exact ⟨he.2, hl.2⟩
  | .flagged has earlier, .flagged has' latter, field, he, hl => by
    obtain h | h := mergeSlot_flagged descriptors field has has' earlier latter
    · rwa [h]
    · rwa [h]
  | .single _, .flagged _ _, _, _, hl => by simpa only [mergeSlot] using hl
  | .single _, .repeated _, _, _, hl => by simpa only [mergeSlot] using hl
  | .flagged _ _, .single _, _, _, hl => by simpa only [mergeSlot] using hl
  | .flagged _ _, .repeated _, _, _, hl => by simpa only [mergeSlot] using hl
  | .repeated _, .single _, _, _, hl => by simpa only [mergeSlot] using hl
  | .repeated _, .flagged _ _, _, _, hl => by simpa only [mergeSlot] using hl

theorem mergeMember_accepted : ∀ (earlier latter : Member δ) (type : FieldType δ),
    earlier.parsed descriptors type → latter.parsed descriptors type →
    (mergeMember descriptors earlier latter).parsed descriptors type
  | .message (some earlier), .message (some latter), type, he, hl => by
    cases type with
    | message descriptor =>
      obtain rfl : earlier.descriptor = descriptor := of_decide_eq_true he.1
      have hd : latter.descriptor = earlier.descriptor := of_decide_eq_true hl.1
      rw [mergeMember]
      refine ⟨decide_eq_true ?_, mergeMessages_accepted earlier latter hd.symm he.2 hl.2⟩
      rw [descriptor_mergeMessages, hd]
    | scalar | string | bytes => cases he.1
  | .message (some _), .message none, _, he, hl => by
    simpa only [mergeMember] using orEarlier_parsed he hl
  | .message (some _), .scalar _ _, _, he, hl => by
    simpa only [mergeMember] using orEarlier_parsed he hl
  | .message (some _), .string _, _, he, hl => by
    simpa only [mergeMember] using orEarlier_parsed he hl
  | .message (some _), .bytes _, _, he, hl => by
    simpa only [mergeMember] using orEarlier_parsed he hl
  | .message none, _, _, he, hl => by simpa only [mergeMember] using orEarlier_parsed he hl
  | .scalar _ _, _, _, he, hl => by simpa only [mergeMember] using orEarlier_parsed he hl
  | .string _, _, _, he, hl => by simpa only [mergeMember] using orEarlier_parsed he hl
  | .bytes _, _, _, he, hl => by simpa only [mergeMember] using orEarlier_parsed he hl

end

end

/-! ## Records keep slots well-formed -/

section

variable [DecidableEq δ] {descriptors : δ → MessageDescriptor δ}
variable {decode : δ → List UInt8 → Option (Message δ)} {field : FieldDescriptor δ}
variable {type : FieldType δ} {record : UnknownField} {slot slot' : Slot δ}

/-- A slot while its message is parsed: a required member may still be missing. -/
def Slot.begun (descriptors : δ → MessageDescriptor δ) (field : FieldDescriptor δ)
    (slot : Slot δ) : Prop :=
  slot.sound field = true ∧ slotAll (Message.slotsAccepted descriptors) slot = true

theorem Slot.parsed.begun (h : slot.parsed descriptors field) : slot.begun descriptors field :=
  ⟨(Bool.and_eq_true _ _ ▸ h.1).1, h.2⟩

/-- Only a required member may be missing. -/
theorem Slot.begun.parsed (h : slot.begun descriptors field) (hlabel : field.label ≠ .required) :
    slot.parsed descriptors field := by
  obtain ⟨hsound, hin⟩ := h
  rw [Slot.sound, Bool.and_eq_true] at hsound
  refine ⟨Slot.accepted_iff.mpr ⟨hsound.1, hsound.2, ?_⟩, hin⟩
  cases slot with
  | single member => exact Slot.checked_single_iff.mpr fun h => absurd h hlabel
  | flagged has member => rfl
  | repeated members => exact hsound.2

theorem zero_parsed (descriptors : δ → MessageDescriptor δ) (type : FieldType δ) :
    type.zero.parsed descriptors type := by
  cases type with
  | scalar type => exact ⟨decide_eq_true rfl, rfl⟩
  | string | bytes | message => exact ⟨rfl, rfl⟩

theorem init_begun (field : FieldDescriptor δ) : field.init.begun descriptors field := by
  have hzero := zero_parsed descriptors field.type
  rw [Slot.begun, Slot.sound, Bool.and_eq_true]
  cases hlabel : field.label with
  | required =>
    rw [init_required hlabel]
    exact ⟨⟨Slot.fits_single_iff.mpr ⟨.inl hlabel, hzero.1⟩, rfl⟩, hzero.2⟩
  | optional =>
    rw [init_optional hlabel]
    split_ifs with hflag
    · refine ⟨⟨Slot.fits_flagged_iff.mpr ⟨⟨hlabel, hflag⟩, hzero.1⟩, ?_⟩, hzero.2⟩
      cases htype : field.type with
      | scalar type => exact decide_eq_true rfl
      | string | bytes | message => rfl
    · exact ⟨⟨Slot.fits_single_iff.mpr ⟨.inr ⟨hlabel, Bool.eq_false_iff.mpr hflag⟩, hzero.1⟩, rfl⟩,
        hzero.2⟩
  | repeated =>
    rw [init_repeated hlabel]
    exact ⟨⟨Slot.fits_repeated_iff.mpr ⟨hlabel, rfl⟩, rfl⟩, rfl⟩

/-- What a record becomes is a member of the type, and it is there. -/
theorem memberOf_parsed {previous : Option (Member δ)} {member : Member δ}
    (hdecode : ∀ d sub, decode d record.payload = some sub →
      sub.descriptor = d ∧ sub.accepted descriptors = true)
    (hprevious : ∀ earlier, previous = some earlier → earlier.parsed descriptors type)
    (h : type.memberOf descriptors decode record previous = some member) :
    member.parsed descriptors type ∧ member.present = true := by
  cases type with
  | scalar type =>
    rw [FieldType.memberOf] at h
    split_ifs at h with hwire
    obtain rfl := Option.some.inj h
    exact ⟨⟨decide_eq_true rfl, rfl⟩, rfl⟩
  | string =>
    rw [FieldType.memberOf] at h
    split_ifs at h with hwire
    obtain rfl := Option.some.inj h
    exact ⟨⟨rfl, rfl⟩, rfl⟩
  | bytes =>
    rw [FieldType.memberOf] at h
    split_ifs at h with hwire
    obtain rfl := Option.some.inj h
    exact ⟨⟨rfl, rfl⟩, rfl⟩
  | message d =>
    rw [FieldType.memberOf] at h
    split_ifs at h with hwire
    obtain ⟨sub, hsub, rfl⟩ := Option.map_eq_some_iff.mp h
    obtain ⟨hd, haccepted⟩ := hdecode d sub hsub
    have htake : (takeOver descriptors previous sub).descriptor = d ∧
        (takeOver descriptors previous sub).accepted descriptors = true := by
      unfold takeOver
      split
      · next earlier =>
        have hearlier := hprevious _ rfl
        have hdesc : earlier.descriptor = d := of_decide_eq_true hearlier.1
        exact ⟨(descriptor_mergeMessages descriptors earlier sub).trans hd,
          mergeMessages_accepted earlier sub (hdesc.trans hd.symm) hearlier.2 haccepted⟩
      · exact ⟨hd, haccepted⟩
    exact ⟨⟨decide_eq_true htake.1, htake.2⟩, rfl⟩

/-- Numbers of a type. -/
theorem values_parsed (type : ScalarType) (values : List type.Carrier) :
    (values.map (Member.scalar (δ := δ) type)).all (·.hasType (.scalar type)) = true ∧
      (values.map (Member.scalar (δ := δ) type)).all Member.present = true ∧
      membersAll (Message.slotsAccepted descriptors) (values.map (.scalar type)) = true := by
  induction values with
  | nil => exact ⟨rfl, rfl, rfl⟩
  | cons value values ih =>
    obtain ⟨ht, hp, ha⟩ := ih
    rw [List.map_cons, List.all_cons, List.all_cons, membersAll, ht, hp, ha]
    exact ⟨(Bool.and_true _).trans (decide_eq_true rfl), rfl, rfl⟩

theorem arrayOf_parsed (descriptors : δ → MessageDescriptor δ) {payload : List UInt8}
    {members : List (Member δ)}
    (h : type.arrayOf payload = some members) :
    members.all (·.hasType type) = true ∧ members.all Member.present = true ∧
      membersAll (Message.slotsAccepted descriptors) members = true := by
  cases type with
  | scalar type =>
    obtain ⟨values, -, rfl⟩ := Option.map_eq_some_iff.mp h
    exact values_parsed type values
  | string | bytes | message => cases h

/-- **A record leaves a slot that is right for its field**, also in a slot whose member was
    missing. -/
theorem absorb_parsed
    (hdecode : ∀ d sub, decode d record.payload = some sub →
      sub.descriptor = d ∧ sub.accepted descriptors = true)
    (hslot : slot.begun descriptors field)
    (h : field.absorb descriptors decode slot record = some slot') :
    slot'.parsed descriptors field := by
  obtain ⟨hsound, hin⟩ := hslot
  rw [Slot.sound, Bool.and_eq_true] at hsound
  obtain ⟨hfits, hsettled⟩ := hsound
  cases slot with
  | single member =>
    obtain ⟨member', hmember, rfl⟩ := Option.map_eq_some_iff.mp h
    rw [Slot.fits_single_iff] at hfits
    obtain ⟨hparsed, hpresent⟩ := memberOf_parsed hdecode
      (fun earlier heq => Option.some.inj heq ▸ ⟨hfits.2, hin⟩) hmember
    exact ⟨Slot.accepted_iff.mpr ⟨Slot.fits_single_iff.mpr ⟨hfits.1, hparsed.1⟩, rfl,
      Slot.checked_single_iff.mpr fun _ => hpresent⟩, hparsed.2⟩
  | flagged has member =>
    obtain ⟨member', hmember, rfl⟩ := Option.map_eq_some_iff.mp h
    rw [Slot.fits_flagged_iff] at hfits
    obtain ⟨hparsed, -⟩ := memberOf_parsed hdecode
      (fun earlier heq => Option.some.inj heq ▸ ⟨hfits.2, hin⟩) hmember
    exact ⟨Slot.accepted_iff.mpr ⟨Slot.fits_flagged_iff.mpr ⟨hfits.1, hparsed.1⟩, rfl, rfl⟩,
      hparsed.2⟩
  | repeated members =>
    rw [Slot.fits_repeated_iff] at hfits
    have happend {more : List (Member δ)} (ht : more.all (·.hasType field.type) = true)
        (hp : more.all Member.present = true)
        (ha : membersAll (Message.slotsAccepted descriptors) more = true) :
        (Slot.repeated (members ++ more)).parsed descriptors field := by
      have hboth : (members ++ more).all Member.present = true := by
        rw [List.all_append, Bool.and_eq_true]
        exact ⟨hsettled, hp⟩
      refine ⟨Slot.accepted_iff.mpr ⟨Slot.fits_repeated_iff.mpr ⟨hfits.1, ?_⟩, hboth, hboth⟩, ?_⟩
      · rw [List.all_append, Bool.and_eq_true]
        exact ⟨hfits.2, ht⟩
      · rw [slotAll, membersAll_append, Bool.and_eq_true]
        exact ⟨hin, ha⟩
    rw [FieldDescriptor.absorb] at h
    split_ifs at h with hpacked
    · obtain ⟨more, hmore, rfl⟩ := Option.map_eq_some_iff.mp h
      obtain ⟨ht, hp, ha⟩ := arrayOf_parsed descriptors hmore
      exact happend ht hp ha
    · obtain ⟨member, hmember, rfl⟩ := Option.map_eq_some_iff.mp h
      obtain ⟨hparsed, hpresent⟩ := memberOf_parsed hdecode (fun _ heq => by cases heq) hmember
      refine happend ?_ ?_ ?_
      · rw [List.all_cons, List.all_nil, Bool.and_true]
        exact hparsed.1
      · rw [List.all_cons, List.all_nil, Bool.and_true]
        exact hpresent
      · rw [membersAll, membersAll, Bool.and_true]
        exact hparsed.2

/-- **All records of a field** leave a slot that is right for it. -/
theorem foldlM_parsed {records : List UnknownField}
    (hdecode : ∀ record ∈ records, ∀ d sub, decode d record.payload = some sub →
      sub.descriptor = d ∧ sub.accepted descriptors = true)
    (hslot : slot.begun descriptors field) (hrequired : field.label = .required → records ≠ [])
    (h : records.foldlM (field.absorb descriptors decode) slot = some slot') :
    slot'.parsed descriptors field := by
  induction records generalizing slot with
  | nil =>
    obtain rfl := Option.some.inj h
    exact hslot.parsed fun hlabel => hrequired hlabel rfl
  | cons record records ih =>
    rw [List.foldlM_cons] at h
    obtain ⟨hfirst, hothers⟩ := List.forall_mem_cons.mp hdecode
    obtain ⟨next, habsorb, hrest⟩ := Option.bind_eq_some_iff.mp h
    have hnext := absorb_parsed hfirst hslot habsorb
    cases records with
    | nil => exact Option.some.inj hrest ▸ hnext
    | cons => exact ih hothers hnext.begun (fun _ => List.cons_ne_nil _ _) hrest

end

/-! ## Messages that are decoded -/

section

variable {descriptors : δ → MessageDescriptor δ} {fields : List (FieldDescriptor δ)}
variable {slots : List (Slot δ)}

theorem slotsAll_eq_true {test : Message δ → Bool} (h : ∀ slot ∈ slots, slotAll test slot = true) :
    slotsAll test slots = true := by
  induction slots with
  | nil => rfl
  | cons slot slots ih =>
    obtain ⟨hfirst, hothers⟩ := List.forall_mem_cons.mp h
    rw [slotsAll, hfirst, ih hothers, Bool.true_and]

theorem slotsHold_of_forall {test : FieldDescriptor δ → Slot δ → Bool}
    (hlength : slots.length = fields.length)
    (h : ∀ (i : ℕ) (field : FieldDescriptor δ) (slot : Slot δ), fields[i]? = some field →
      slots[i]? = some slot → test field slot = true) :
    slotsHold test fields slots = true := by
  induction fields generalizing slots with
  | nil =>
    rw [List.length_nil, List.length_eq_zero_iff] at hlength
    rw [hlength, slotsHold]
  | cons field fields ih =>
    obtain ⟨slot, slots, rfl⟩ := List.exists_cons_of_length_eq_add_one hlength
    rw [slotsHold_cons]
    refine ⟨h 0 field slot rfl rfl, ih (Nat.succ.inj hlength) fun i f s hf hs => ?_⟩
    exact h (i + 1) f s hf hs

/-- A record with the number of a required field is among those of the field. -/
theorem events_ne_nil {desc : MessageDescriptor δ} {records : List UnknownField} {i : ℕ}
    {field : FieldDescriptor δ} (hfield : desc.fields[i]? = some field)
    (hcomplete : desc.complete records = true) (hlabel : field.label = .required) :
    Components.events desc.key i records ≠ [] := by
  have hrecord := List.all_eq_true.mp hcomplete field (List.mem_of_getElem? hfield)
  rw [hlabel, Bool.or_eq_true, decide_eq_true_eq] at hrecord
  obtain ⟨record, hin, htag⟩ := List.any_eq_true.mp (hrecord.resolve_left (not_not.mpr rfl))
  rw [decide_eq_true_eq] at htag
  refine List.ne_nil_of_mem (List.mem_filter.mpr ⟨hin, decide_eq_true ?_⟩)
  exact (MessageDescriptor.key_eq_iff hfield).mpr htag

end

section

variable [DecidableEq δ] {descriptors : δ → MessageDescriptor δ} {descriptor : δ}
variable {message : Message δ}

/-- A message is right, when those in it are. -/
theorem decodeRecords_accepted {decode : δ → List UInt8 → Option (Message δ)}
    {records : List UnknownField}
    (hdecode : ∀ record ∈ records, ∀ d sub, decode d record.payload = some sub →
      sub.descriptor = d ∧ sub.accepted descriptors = true)
    (hscan : ∀ record ∈ records,
      scanData record.wireType record.data = some (record.data.length, record.prefixLen))
    (h : decodeRecords descriptors decode descriptor records = some message) :
    message.descriptor = descriptor ∧ message.accepted descriptors = true := by
  rw [decodeRecords] at h
  split_ifs at h with hlimits
  obtain ⟨slots, hrun, rfl⟩ := Option.map_eq_some_iff.mp h
  obtain ⟨hlength, -, hruns⟩ := Components.foldlM_eq_some_iff.mp hrun
  rw [List.length_map] at hlength
  have hparsed (i : ℕ) (field : FieldDescriptor δ) (slot : Slot δ)
      (hfield : (descriptors descriptor).fields[i]? = some field) (hslot : slots[i]? = some slot) :
      slot.parsed descriptors field := by
    have hfold := hruns i field.init (MessageDescriptor.init_getElem? hfield)
    rw [MessageDescriptor.change_eq hfield, hslot] at hfold
    exact foldlM_parsed (fun record hin => hdecode record (List.mem_of_mem_filter hin))
      (init_begun field) (events_ne_nil hfield hlimits.2) hfold
  refine ⟨rfl, ?_⟩
  rw [Message.accepted, Message.all, Bool.and_eq_true, Message.slotsAccepted, Bool.and_eq_true]
  refine ⟨⟨slotsHold_of_forall hlength fun i f s hf hs => (hparsed i f s hf hs).1, ?_⟩,
    slotsAll_eq_true fun slot hin => ?_⟩
  · refine List.all_eq_true.mpr fun record hin => ?_
    obtain ⟨hmem, hkey⟩ := List.mem_filter.mp hin
    rw [Bool.and_eq_true, decide_eq_true_eq]
    exact ⟨hscan record hmem, hkey⟩
  · obtain ⟨i, hi⟩ := List.getElem?_of_mem hin
    have hlt := (List.getElem?_eq_some_iff.mp hi).1
    rw [hlength] at hlt
    exact (hparsed i _ slot (List.getElem?_eq_getElem hlt) hi).2

/-- **Every message that is decoded** is of its descriptor, laid out as that says, checked and
    settled, and so are the messages in it. -/
theorem decode_accepted {data : List UInt8}
    (h : decode descriptors descriptor data = some message) :
    message.descriptor = descriptor ∧ message.accepted descriptors = true := by
  induction hn : data.length using Nat.strongRecOn generalizing data descriptor message with
  | ind n ih =>
    rw [decode_eq, decodeFields] at h
    obtain ⟨records, hitems, hrecords⟩ := Option.bind_eq_some_iff.mp h
    have hshort := length_payload_lt hitems
    refine decodeRecords_accepted (fun record hin d sub hsub => ?_) ?_ hrecords
    · exact ih record.payload.length (hn ▸ hshort record hin) hsub rfl
    · exact Scanner.forall_mem_items (fun _ _ _ hscan => scanData_of_scanRecord hscan) hitems

end

end Cebus.ProtobufC
