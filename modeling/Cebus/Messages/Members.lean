import Cebus.Messages.Structures

/-!
# The fields of a generated structure

The members of a message are read as the fields of its structure. What the handlers follow
without a test are the pointers of required fields.

* `ofMessage_toMessage`: the fields are those that were stored.
* `ofMessage_isSome`: in every message that can be packed, and so in every message that has
  been unpacked, the required pointers are there.
-/

namespace Cebus.Proto

open ProtobufC

/-! ## Reading members -/

/-- The halves of a `bcl.Guid`. -/
def Guid.ofMessage : Message MessageName → Option Guid
  | .mk _ [.single (.scalar .fixed64 lo), .single (.scalar .fixed64 hi)] _ => some ⟨lo, hi⟩
  | _ => none

/-- The value of a `MessageId`, if it is there. -/
def MessageId.ofMessage : Message MessageName → Option MessageId
  | .mk _ [.single (.message (some value))] _ => (Guid.ofMessage value).map MessageId.mk
  | _ => none

/-- The name of a `MessageTypeId`, if it is there. -/
def MessageTypeId.ofMessage : Message MessageName → Option MessageTypeId
  | .mk _ [.single (.string (some fullName))] _ => some ⟨fullName⟩
  | _ => none

/-- The value of a `PeerId`, if it is there. -/
def PeerId.ofMessage : Message MessageName → Option PeerId
  | .mk _ [.single (.string (some value))] _ => some ⟨value⟩
  | _ => none

/-- The fields of an `OriginatorInfo`, if the sender and its endpoint are there; the two
    optional strings may be `NULL`. -/
def OriginatorInfo.ofMessage : Message MessageName → Option OriginatorInfo
  | .mk _ [.single (.message (some senderId)), .single (.string (some senderEndpoint)),
      .single (.string senderMachine), .single (.string initiatorUserName)] _ =>
    (PeerId.ofMessage senderId).map fun senderId =>
      ⟨senderId, senderEndpoint, senderMachine, initiatorUserName⟩
  | _ => none

/-- The fields of a `TransportMessage`, if its id, type and originator are there; the
    environment may be `NULL`. -/
def TransportMessage.ofMessage : Message MessageName → Option TransportMessage
  | .mk _ [.single (.message (some id)), .single (.message (some messageTypeId)),
      .single (.bytes contentBytes), .single (.message (some originator)),
      .single (.string environment), .flagged has (.scalar .bool wasPersisted), .repeated _] _ => do
    let id ← MessageId.ofMessage id
    let messageTypeId ← MessageTypeId.ofMessage messageTypeId
    let originator ← OriginatorInfo.ofMessage originator
    some ⟨id, messageTypeId, contentBytes, originator, environment, ⟨has, wasPersisted⟩⟩
  | _ => none

/-- The fields of a `Peer`, if its id and endpoint are there. -/
def Peer.ofMessage : Message MessageName → Option Peer
  | .mk _ [.single (.message (some id)), .single (.string (some endpoint)),
      .single (.scalar .bool isUp), .flagged has (.scalar .bool isResponding)] _ =>
    (PeerId.ofMessage id).map fun id => ⟨id, endpoint, isUp, ⟨has, isResponding⟩⟩
  | _ => none

/-- The fields of a `bcl.DateTime`. -/
def DateTime.ofMessage : Message MessageName → Option DateTime
  | .mk _ [.flagged hasValue (.scalar .sint64 value), .flagged hasScale (.scalar .enum scale)] _ =>
    some ⟨⟨hasValue, value.toInt64⟩, ⟨hasScale, scale.toInt32⟩⟩
  | _ => none

/-- The string of an element. -/
def stringOf : Member MessageName → Option CString
  | .string str => str
  | _ => none

/-- An element that points to a message. -/
def elementOf {α : Type} (read : Message MessageName → Option α) :
    Member MessageName → Option α
  | .message (some message) => read message
  | _ => none

/-- The parts of a `BindingKey`, if each is there. -/
def BindingKey.ofMessage : Message MessageName → Option BindingKey
  | .mk _ [.repeated parts] _ => (parts.mapM stringOf).map BindingKey.mk
  | _ => none

/-- The fields of a `Subscription`, if both are there. -/
def Subscription.ofMessage : Message MessageName → Option Subscription
  | .mk _ [.single (.message (some messageTypeId)), .single (.message (some bindingKey))] _ => do
    let messageTypeId ← MessageTypeId.ofMessage messageTypeId
    let bindingKey ← BindingKey.ofMessage bindingKey
    some ⟨messageTypeId, bindingKey⟩
  | _ => none

/-- The timestamp, which may be NULL. -/
def timestampOf : Option (Message MessageName) → Option (Option DateTime)
  | none => some none
  | some date => (DateTime.ofMessage date).map some

/-- The fields of a `PeerDescriptor`, if its peer and its subscriptions are there. -/
def PeerDescriptor.ofMessage : Message MessageName → Option PeerDescriptor
  | .mk _ [.single (.message (some peer)), .repeated subscriptions,
      .single (.scalar .bool isPersistent), .single (.message timestampUtc),
      .flagged has (.scalar .bool hasDebuggerAttached)] _ => do
    let peer ← Peer.ofMessage peer
    let subscriptions ← subscriptions.mapM (elementOf Subscription.ofMessage)
    let timestampUtc ← timestampOf timestampUtc
    some ⟨peer, subscriptions, isPersistent, timestampUtc, ⟨has, hasDebuggerAttached⟩⟩
  | _ => none

/-- The descriptors of a `RegisterPeerResponse`. -/
def peerDescriptorsOf : Message MessageName → Option (List PeerDescriptor)
  | .mk _ [.repeated descriptors] _ =>
    descriptors.mapM (elementOf PeerDescriptor.ofMessage)
  | _ => none

/-! ## The fields that were stored -/

theorem mapM_map {α β : Type} (f : β → Option α) (g : α → β) (h : ∀ a, f (g a) = some a)
    (l : List α) : (l.map g).mapM f = some l := by
  induction l with
  | nil => rfl
  | cons a l ih =>
    rw [List.map_cons, List.mapM_cons, h, ih]
    rfl

theorem Guid.ofMessage_toMessage (guid : Guid) : Guid.ofMessage guid.toMessage = some guid := rfl

theorem TransportMessage.ofMessage_toMessage (message : TransportMessage) :
    TransportMessage.ofMessage message.toMessage = some message := rfl

theorem Peer.ofMessage_toMessage (peer : Peer) : Peer.ofMessage peer.toMessage = some peer := rfl

theorem DateTime.ofMessage_toMessage (date : DateTime) :
    DateTime.ofMessage date.toMessage = some date := rfl

theorem BindingKey.ofMessage_toMessage (key : BindingKey) :
    BindingKey.ofMessage key.toMessage = some key := by
  rw [toMessage, plain, ofMessage, mapM_map stringOf (fun part => .string (some part)) fun _ => rfl]
  rfl

theorem Subscription.ofMessage_toMessage (subscription : Subscription) :
    Subscription.ofMessage subscription.toMessage = some subscription := by
  rw [toMessage, pointer, pointer, plain, ofMessage, BindingKey.ofMessage_toMessage]
  rfl

theorem PeerDescriptor.ofMessage_toMessage (descriptor : PeerDescriptor) :
    PeerDescriptor.ofMessage descriptor.toMessage = some descriptor := by
  have hdate : timestampOf (descriptor.timestampUtc.map DateTime.toMessage) =
      some descriptor.timestampUtc := by
    cases descriptor.timestampUtc with
    | none => rfl
    | some date => rw [Option.map_some, timestampOf, DateTime.ofMessage_toMessage]; rfl
  rw [toMessage, pointer, plain, flag, ofMessage, Peer.ofMessage_toMessage, hdate,
    mapM_map (elementOf Subscription.ofMessage) (fun subscription => pointer subscription.toMessage)
      Subscription.ofMessage_toMessage]
  rfl

theorem peerDescriptorsOf_registerPeerResponse (descriptors : List PeerDescriptor) :
    peerDescriptorsOf (registerPeerResponse descriptors) = some descriptors := by
  rw [registerPeerResponse, plain, peerDescriptorsOf]
  exact mapM_map (elementOf PeerDescriptor.ofMessage)
    (fun descriptor => pointer descriptor.toMessage) PeerDescriptor.ofMessage_toMessage descriptors

/-! ## Required pointers are there -/

section

variable {slot : Slot MessageName} {slots : List (Slot MessageName)} {i : UInt32}
variable {field : FieldDescriptor MessageName} {fields : List (FieldDescriptor MessageName)}
variable {name : MessageName} {type : ScalarType}

theorem exists_cons_of_slotsHold (h : slotsHold Slot.valid (field :: fields) slots = true) :
    ∃ slot rest, slots = slot :: rest ∧ slot.valid field = true ∧
      slotsHold Slot.valid fields rest = true := by
  cases slots with
  | nil => cases h
  | cons slot rest => exact ⟨slot, rest, rfl, slotsHold_cons.mp h⟩

theorem eq_nil_of_slotsHold
    (h : slotsHold Slot.valid ([] : List (FieldDescriptor MessageName)) slots = true) :
    slots = [] := by
  cases slots with
  | nil => rfl
  | cons slot rest => cases h

/-- What a slot holds for a required field. -/
theorem required_member {type : FieldType MessageName} (h : slot.valid (required i type) = true) :
    ∃ member, slot = .single member ∧ member.hasType type = true ∧ member.present = true := by
  cases slot with
  | single member =>
    obtain ⟨-, htype, hpresent⟩ := Slot.valid_single h
    exact ⟨member, rfl, htype, hpresent rfl⟩
  | flagged has member => simp [Slot.valid, Slot.fits, required] at h
  | repeated members => simp [Slot.valid, Slot.fits, required] at h

theorem optional_member {type : FieldType MessageName} (hflag : type.hasFlag = false)
    (h : slot.valid (optional i type) = true) :
    ∃ member, slot = .single member ∧ member.hasType type = true := by
  cases slot with
  | single member => exact ⟨member, rfl, (Slot.valid_single h).2.1⟩
  | flagged has member => simp [Slot.valid, Slot.fits, optional, hflag] at h
  | repeated members => simp [Slot.valid, Slot.fits, optional] at h

theorem hasType_scalar {member : Member MessageName} (h : member.hasType (.scalar type) = true) :
    ∃ value, member = .scalar type value := by
  obtain ⟨scalar, value, htype, rfl⟩ := Member.isScalar rfl h
  obtain rfl := FieldType.scalar.inj htype
  exact ⟨value, rfl⟩

theorem hasType_string {member : Member MessageName} (h : member.hasType .string = true) :
    ∃ str, member = .string str := by
  cases member with
  | string str => exact ⟨str, rfl⟩
  | scalar | bytes => cases h
  | message sub => cases sub <;> cases h

theorem hasType_bytes {member : Member MessageName} (h : member.hasType .bytes = true) :
    ∃ data, member = .bytes data := by
  cases member with
  | bytes data => exact ⟨data, rfl⟩
  | scalar | string => cases h
  | message sub => cases sub <;> cases h

theorem hasType_message {member : Member MessageName} (h : member.hasType (.message name) = true) :
    ∃ sub, member = .message sub ∧ ∀ message, sub = some message → message.descriptor = name := by
  cases member with
  | scalar | string | bytes => cases h
  | message sub =>
    refine ⟨sub, rfl, fun message heq => ?_⟩
    subst heq
    exact of_decide_eq_true h

theorem required_scalar (h : slot.valid (required i (.scalar type)) = true) :
    ∃ value, slot = .single (.scalar type value) := by
  obtain ⟨member, rfl, htype, -⟩ := required_member h
  obtain ⟨value, rfl⟩ := hasType_scalar htype
  exact ⟨value, rfl⟩

theorem required_string (h : slot.valid (required i .string) = true) :
    ∃ str, slot = .single (.string (some str)) := by
  obtain ⟨member, rfl, htype, hpresent⟩ := required_member h
  obtain ⟨str, rfl⟩ := hasType_string htype
  cases str with
  | none => cases hpresent
  | some str => exact ⟨str, rfl⟩

theorem required_bytes (h : slot.valid (required i .bytes) = true) :
    ∃ data, slot = .single (.bytes data) := by
  obtain ⟨member, rfl, htype, -⟩ := required_member h
  obtain ⟨data, rfl⟩ := hasType_bytes htype
  exact ⟨data, rfl⟩

/-- A message that can be packed, of this descriptor. -/
def Packable (name : MessageName) (message : Message MessageName) : Prop :=
  message.descriptor = name ∧ message.valid MessageName.descriptor = true

/-- **A required pointer is there.** -/
theorem required_pointer (h : slot.valid (required i (.message name)) = true)
    (ha : slotAll (Message.slotsValid MessageName.descriptor) slot = true) :
    ∃ sub, slot = .single (.message (some sub)) ∧ Packable name sub := by
  obtain ⟨member, rfl, htype, hpresent⟩ := required_member h
  obtain ⟨sub, rfl, hname⟩ := hasType_message htype
  cases sub with
  | none => cases hpresent
  | some sub => exact ⟨sub, rfl, hname sub rfl, ha⟩

theorem optional_string (h : slot.valid (optional i .string) = true) :
    ∃ str, slot = .single (.string str) := by
  obtain ⟨member, rfl, htype⟩ := optional_member rfl h
  obtain ⟨str, rfl⟩ := hasType_string htype
  exact ⟨str, rfl⟩

theorem optional_pointer (h : slot.valid (optional i (.message name)) = true)
    (ha : slotAll (Message.slotsValid MessageName.descriptor) slot = true) :
    ∃ sub, slot = .single (.message sub) ∧
      ∀ message, sub = some message → Packable name message := by
  obtain ⟨member, rfl, htype⟩ := optional_member rfl h
  obtain ⟨sub, rfl, hname⟩ := hasType_message htype
  refine ⟨sub, rfl, fun message heq => ⟨hname message heq, ?_⟩⟩
  subst heq
  exact ha

theorem optional_scalar (h : slot.valid (optional i (.scalar type)) = true) :
    ∃ has value, slot = .flagged has (.scalar type value) := by
  cases slot with
  | single member => simp [Slot.valid, Slot.fits, optional, FieldType.hasFlag] at h
  | flagged has member =>
    obtain ⟨-, htype, -⟩ := Slot.valid_flagged h
    obtain ⟨value, rfl⟩ := hasType_scalar htype
    exact ⟨has, value, rfl⟩
  | repeated members => simp [Slot.valid, Slot.fits, optional] at h

theorem repeated_members {type : FieldType MessageName} (h : slot.valid (repeated i type) = true) :
    ∃ members, slot = .repeated members ∧ members.all (·.hasType type) = true ∧
      members.all Member.present = true := by
  cases slot with
  | single member => simp [Slot.valid, Slot.fits, repeated] at h
  | flagged has member => simp [Slot.valid, Slot.fits, repeated] at h
  | repeated members => exact ⟨members, rfl, Slot.valid_repeated h⟩

theorem exists_strings {members : List (Member MessageName)}
    (ht : members.all (·.hasType .string) = true) (hp : members.all Member.present = true) :
    ∃ strs, members.mapM stringOf = some strs := by
  induction members with
  | nil => exact ⟨[], rfl⟩
  | cons member members ih =>
    rw [List.all_cons, Bool.and_eq_true] at ht hp
    obtain ⟨str, rfl⟩ := hasType_string ht.1
    obtain ⟨strs, hstrs⟩ := ih ht.2 hp.2
    cases str with
    | none => cases hp.1
    | some str =>
      refine ⟨str :: strs, ?_⟩
      rw [List.mapM_cons, hstrs]
      rfl

/-- The elements that point to messages are read, when those messages are. -/
theorem exists_elements {α : Type} {read : Message MessageName → Option α}
    {members : List (Member MessageName)}
    (hread : ∀ sub, Packable name sub → ∃ a, read sub = some a)
    (ht : members.all (·.hasType (.message name)) = true)
    (hp : members.all Member.present = true)
    (ha : membersAll (Message.slotsValid MessageName.descriptor) members = true) :
    ∃ l, members.mapM (elementOf read) = some l := by
  induction members with
  | nil => exact ⟨[], rfl⟩
  | cons member members ih =>
    rw [List.all_cons, Bool.and_eq_true] at ht hp
    rw [membersAll, Bool.and_eq_true] at ha
    obtain ⟨sub, rfl, hname⟩ := hasType_message ht.1
    obtain ⟨l, hl⟩ := ih ht.2 hp.2 ha.2
    cases sub with
    | none => cases hp.1
    | some sub =>
      obtain ⟨a, hsub⟩ := hread sub ⟨hname sub rfl, ha.1⟩
      refine ⟨a :: l, ?_⟩
      rw [List.mapM_cons, elementOf, hsub, hl]
      rfl

end

/-- The slots of a message that can be packed. -/
theorem Packable.slots {name : MessageName} {message : Message MessageName}
    (h : Packable name message) : ∃ slots unknownFields, message = .mk name slots unknownFields ∧
      slotsHold Slot.valid name.fields slots = true ∧
      slotsAll (Message.slotsValid MessageName.descriptor) slots = true := by
  obtain ⟨hname, hvalid⟩ := h
  obtain ⟨descriptor, slots, unknownFields⟩ := message
  obtain rfl : descriptor = name := hname
  rw [Message.valid, Message.all, Bool.and_eq_true] at hvalid
  exact ⟨slots, unknownFields, rfl, hvalid⟩

theorem MessageTypeId.exists_ofMessage {message : Message MessageName}
    (h : Packable .messageTypeId message) : ∃ id, MessageTypeId.ofMessage message = some id := by
  obtain ⟨slots, unknownFields, rfl, hslots, -⟩ := h.slots
  obtain ⟨first, rest, rfl, hfirst, hrest⟩ := exists_cons_of_slotsHold hslots
  obtain rfl := eq_nil_of_slotsHold hrest
  obtain ⟨str, rfl⟩ := required_string hfirst
  exact ⟨⟨str⟩, rfl⟩

theorem PeerId.exists_ofMessage {message : Message MessageName} (h : Packable .peerId message) :
    ∃ id, PeerId.ofMessage message = some id := by
  obtain ⟨slots, unknownFields, rfl, hslots, -⟩ := h.slots
  obtain ⟨first, rest, rfl, hfirst, hrest⟩ := exists_cons_of_slotsHold hslots
  obtain rfl := eq_nil_of_slotsHold hrest
  obtain ⟨str, rfl⟩ := required_string hfirst
  exact ⟨⟨str⟩, rfl⟩

theorem BindingKey.exists_ofMessage {message : Message MessageName}
    (h : Packable .bindingKey message) : ∃ key, BindingKey.ofMessage message = some key := by
  obtain ⟨slots, unknownFields, rfl, hslots, -⟩ := h.slots
  obtain ⟨first, rest, rfl, hfirst, hrest⟩ := exists_cons_of_slotsHold hslots
  obtain rfl := eq_nil_of_slotsHold hrest
  obtain ⟨members, rfl, htype, hpresent⟩ := repeated_members hfirst
  obtain ⟨strs, hstrs⟩ := exists_strings htype hpresent
  exact ⟨⟨strs⟩, by rw [ofMessage, hstrs]; rfl⟩

theorem Guid.exists_ofMessage {message : Message MessageName} (h : Packable .guid message) :
    ∃ guid, Guid.ofMessage message = some guid := by
  obtain ⟨slots, unknownFields, rfl, hslots, -⟩ := h.slots
  obtain ⟨first, rest, rfl, hfirst, hslots⟩ := exists_cons_of_slotsHold hslots
  obtain ⟨second, rest, rfl, hsecond, hslots⟩ := exists_cons_of_slotsHold hslots
  obtain rfl := eq_nil_of_slotsHold hslots
  obtain ⟨lo, rfl⟩ := required_scalar hfirst
  obtain ⟨hi, rfl⟩ := required_scalar hsecond
  exact ⟨⟨lo, hi⟩, rfl⟩

theorem MessageId.exists_ofMessage {message : Message MessageName}
    (h : Packable .messageId message) : ∃ id, MessageId.ofMessage message = some id := by
  obtain ⟨slots, unknownFields, rfl, hslots, hall⟩ := h.slots
  obtain ⟨first, rest, rfl, hfirst, hslots⟩ := exists_cons_of_slotsHold hslots
  obtain rfl := eq_nil_of_slotsHold hslots
  rw [slotsAll, Bool.and_eq_true] at hall
  obtain ⟨sub, rfl, hsub⟩ := required_pointer hfirst hall.1
  obtain ⟨guid, hguid⟩ := Guid.exists_ofMessage hsub
  exact ⟨⟨guid⟩, by rw [ofMessage, hguid]; rfl⟩

theorem OriginatorInfo.exists_ofMessage {message : Message MessageName}
    (h : Packable .originatorInfo message) :
    ∃ info, OriginatorInfo.ofMessage message = some info := by
  obtain ⟨slots, unknownFields, rfl, hslots, hall⟩ := h.slots
  obtain ⟨first, rest, rfl, hfirst, hslots⟩ := exists_cons_of_slotsHold hslots
  obtain ⟨second, rest, rfl, hsecond, hslots⟩ := exists_cons_of_slotsHold hslots
  obtain ⟨third, rest, rfl, hthird, hslots⟩ := exists_cons_of_slotsHold hslots
  obtain ⟨fourth, rest, rfl, hfourth, hslots⟩ := exists_cons_of_slotsHold hslots
  obtain rfl := eq_nil_of_slotsHold hslots
  rw [slotsAll, Bool.and_eq_true] at hall
  obtain ⟨sender, rfl, hsender⟩ := required_pointer hfirst hall.1
  obtain ⟨endpoint, rfl⟩ := required_string hsecond
  obtain ⟨machine, rfl⟩ := optional_string hthird
  obtain ⟨user, rfl⟩ := optional_string hfourth
  obtain ⟨id, hid⟩ := PeerId.exists_ofMessage hsender
  exact ⟨⟨id, endpoint, machine, user⟩, by rw [ofMessage, hid]; rfl⟩

/-- **A transport message** has all parts that are required of it. -/
theorem TransportMessage.exists_ofMessage {message : Message MessageName}
    (h : Packable .transportMessage message) :
    ∃ proto, TransportMessage.ofMessage message = some proto := by
  obtain ⟨slots, unknownFields, rfl, hslots, hall⟩ := h.slots
  obtain ⟨first, rest, rfl, hfirst, hslots⟩ := exists_cons_of_slotsHold hslots
  obtain ⟨second, rest, rfl, hsecond, hslots⟩ := exists_cons_of_slotsHold hslots
  obtain ⟨third, rest, rfl, hthird, hslots⟩ := exists_cons_of_slotsHold hslots
  obtain ⟨fourth, rest, rfl, hfourth, hslots⟩ := exists_cons_of_slotsHold hslots
  obtain ⟨fifth, rest, rfl, hfifth, hslots⟩ := exists_cons_of_slotsHold hslots
  obtain ⟨sixth, rest, rfl, hsixth, hslots⟩ := exists_cons_of_slotsHold hslots
  obtain ⟨seventh, rest, rfl, hseventh, hslots⟩ := exists_cons_of_slotsHold hslots
  obtain rfl := eq_nil_of_slotsHold hslots
  simp only [slotsAll, Bool.and_eq_true] at hall
  obtain ⟨id, rfl, hid⟩ := required_pointer hfirst hall.1
  obtain ⟨typeId, rfl, htypeId⟩ := required_pointer hsecond hall.2.1
  obtain ⟨content, rfl⟩ := required_bytes hthird
  obtain ⟨originator, rfl, horiginator⟩ := required_pointer hfourth hall.2.2.2.1
  obtain ⟨environment, rfl⟩ := optional_string hfifth
  obtain ⟨has, persisted, rfl⟩ := optional_scalar hsixth
  obtain ⟨peers, rfl, -⟩ := repeated_members hseventh
  obtain ⟨id', hid'⟩ := MessageId.exists_ofMessage hid
  obtain ⟨typeId', htypeId'⟩ := MessageTypeId.exists_ofMessage htypeId
  obtain ⟨originator', horiginator'⟩ := OriginatorInfo.exists_ofMessage horiginator
  exact ⟨⟨id', typeId', content, originator', environment, ⟨has, persisted⟩⟩, by
    rw [ofMessage, hid', htypeId', horiginator']; rfl⟩

theorem Peer.exists_ofMessage {message : Message MessageName} (h : Packable .peer message) :
    ∃ peer, Peer.ofMessage message = some peer := by
  obtain ⟨slots, unknownFields, rfl, hslots, hall⟩ := h.slots
  obtain ⟨first, rest, rfl, hfirst, hslots⟩ := exists_cons_of_slotsHold hslots
  obtain ⟨second, rest, rfl, hsecond, hslots⟩ := exists_cons_of_slotsHold hslots
  obtain ⟨third, rest, rfl, hthird, hslots⟩ := exists_cons_of_slotsHold hslots
  obtain ⟨fourth, rest, rfl, hfourth, hslots⟩ := exists_cons_of_slotsHold hslots
  obtain rfl := eq_nil_of_slotsHold hslots
  rw [slotsAll, Bool.and_eq_true] at hall
  obtain ⟨id, rfl, hid⟩ := required_pointer hfirst hall.1
  obtain ⟨endpoint, rfl⟩ := required_string hsecond
  obtain ⟨isUp, rfl⟩ := required_scalar hthird
  obtain ⟨has, isResponding, rfl⟩ := optional_scalar hfourth
  obtain ⟨id', hid'⟩ := PeerId.exists_ofMessage hid
  exact ⟨⟨id', endpoint, isUp, ⟨has, isResponding⟩⟩, by rw [ofMessage, hid']; rfl⟩

theorem DateTime.exists_ofMessage {message : Message MessageName} (h : Packable .dateTime message) :
    ∃ date, DateTime.ofMessage message = some date := by
  obtain ⟨slots, unknownFields, rfl, hslots, -⟩ := h.slots
  obtain ⟨first, rest, rfl, hfirst, hslots⟩ := exists_cons_of_slotsHold hslots
  obtain ⟨second, rest, rfl, hsecond, hslots⟩ := exists_cons_of_slotsHold hslots
  obtain rfl := eq_nil_of_slotsHold hslots
  obtain ⟨hasValue, value, rfl⟩ := optional_scalar hfirst
  obtain ⟨hasScale, scale, rfl⟩ := optional_scalar hsecond
  exact ⟨⟨⟨hasValue, value.toInt64⟩, ⟨hasScale, scale.toInt32⟩⟩, rfl⟩

theorem Subscription.exists_ofMessage {message : Message MessageName}
    (h : Packable .subscription message) :
    ∃ subscription, Subscription.ofMessage message = some subscription := by
  obtain ⟨slots, unknownFields, rfl, hslots, hall⟩ := h.slots
  obtain ⟨first, rest, rfl, hfirst, hslots⟩ := exists_cons_of_slotsHold hslots
  obtain ⟨second, rest, rfl, hsecond, hslots⟩ := exists_cons_of_slotsHold hslots
  obtain rfl := eq_nil_of_slotsHold hslots
  simp only [slotsAll, Bool.and_eq_true] at hall
  obtain ⟨typeId, rfl, htypeId⟩ := required_pointer hfirst hall.1
  obtain ⟨key, rfl, hkey⟩ := required_pointer hsecond hall.2.1
  obtain ⟨typeId', htypeId'⟩ := MessageTypeId.exists_ofMessage htypeId
  obtain ⟨key', hkey'⟩ := BindingKey.exists_ofMessage hkey
  exact ⟨⟨typeId', key'⟩, by rw [ofMessage, htypeId', hkey']; rfl⟩

theorem PeerDescriptor.exists_ofMessage {message : Message MessageName}
    (h : Packable .peerDescriptor message) :
    ∃ descriptor, PeerDescriptor.ofMessage message = some descriptor := by
  obtain ⟨slots, unknownFields, rfl, hslots, hall⟩ := h.slots
  obtain ⟨first, rest, rfl, hfirst, hslots⟩ := exists_cons_of_slotsHold hslots
  obtain ⟨second, rest, rfl, hsecond, hslots⟩ := exists_cons_of_slotsHold hslots
  obtain ⟨third, rest, rfl, hthird, hslots⟩ := exists_cons_of_slotsHold hslots
  obtain ⟨fourth, rest, rfl, hfourth, hslots⟩ := exists_cons_of_slotsHold hslots
  obtain ⟨fifth, rest, rfl, hfifth, hslots⟩ := exists_cons_of_slotsHold hslots
  obtain rfl := eq_nil_of_slotsHold hslots
  simp only [slotsAll, Bool.and_eq_true] at hall
  obtain ⟨peer, rfl, hpeer⟩ := required_pointer hfirst hall.1
  obtain ⟨members, rfl, htype, hpresent⟩ := repeated_members hsecond
  obtain ⟨isPersistent, rfl⟩ := required_scalar hthird
  obtain ⟨date, rfl, hdate⟩ := optional_pointer hfourth hall.2.2.2.1
  obtain ⟨has, hasDebugger, rfl⟩ := optional_scalar hfifth
  obtain ⟨peer', hpeer'⟩ := Peer.exists_ofMessage hpeer
  obtain ⟨subscriptions, hsubscriptions⟩ :=
    exists_elements (fun _ hsub => Subscription.exists_ofMessage hsub) htype hpresent hall.2.1
  have htimestamp : ∃ timestamp, timestampOf date = some timestamp := by
    cases date with
    | none => exact ⟨none, rfl⟩
    | some date =>
      obtain ⟨date', hdate'⟩ := DateTime.exists_ofMessage (hdate date rfl)
      exact ⟨some date', by rw [timestampOf, hdate']; rfl⟩
  obtain ⟨timestamp, htimestamp⟩ := htimestamp
  exact ⟨⟨peer', subscriptions, isPersistent, timestamp, ⟨has, hasDebugger⟩⟩, by
    rw [ofMessage, hpeer', hsubscriptions, htimestamp]; rfl⟩

/-- **Every descriptor of a response** has all parts that are required of it. -/
theorem exists_peerDescriptorsOf {message : Message MessageName}
    (h : Packable .registerPeerResponse message) :
    ∃ descriptors, peerDescriptorsOf message = some descriptors := by
  obtain ⟨slots, unknownFields, rfl, hslots, hall⟩ := h.slots
  obtain ⟨first, rest, rfl, hfirst, hslots⟩ := exists_cons_of_slotsHold hslots
  obtain rfl := eq_nil_of_slotsHold hslots
  rw [slotsAll, Bool.and_eq_true] at hall
  obtain ⟨members, rfl, htype, hpresent⟩ := repeated_members hfirst
  exact exists_elements (fun _ hsub => PeerDescriptor.exists_ofMessage hsub) htype hpresent hall.1

end Cebus.Proto
