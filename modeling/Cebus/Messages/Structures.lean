import Cebus.Messages.Descriptors
import Cebus.Messages.Proto
import Cebus.ProtobufC.Rewrite

/-!
# The generated structures as messages

A generated structure is a `ProtobufCMessage` with its members behind it. What the protobuf
library makes of it is what `Proto.lean` says of its fields.

* `toMessage_transfer`: a structure that is written is read without the values of the optional
  fields that are not set.
* `ofMessage_toMessage`: the members of a message are the fields of its structure.
-/

namespace Cebus.Proto

open ProtobufC

/-- A message without unknown fields. -/
def plain (name : MessageName) (slots : List (Slot MessageName)) : Message MessageName :=
  .mk name slots []

/-! ## Structures in memory -/

/-- A member that points to a message. -/
def pointer (message : Message MessageName) : Member MessageName := .message (some message)

/-- A truth value with its flag. -/
def flag (s : Scalar Bool) : Slot MessageName := .flagged s.has (.scalar .bool s.value)

/-- `bcl.Guid` (`bcl.proto`, lines 46–49). -/
def Guid.toMessage (guid : Guid) : Message MessageName :=
  plain .guid [.single (.scalar .fixed64 guid.lo), .single (.scalar .fixed64 guid.hi)]

/-- `MessageId` (`message_id.proto`, lines 5–7). -/
def MessageId.toMessage (id : MessageId) : Message MessageName :=
  plain .messageId [.single (pointer id.value.toMessage)]

/-- `MessageTypeId` (`message_type_id.proto`, lines 3–5). -/
def MessageTypeId.toMessage (id : MessageTypeId) : Message MessageName :=
  plain .messageTypeId [.single (.string (some id.fullName))]

/-- `PeerId` (`peer_id.proto`, lines 3–5). -/
def PeerId.toMessage (id : PeerId) : Message MessageName :=
  plain .peerId [.single (.string (some id.value))]

/-- `OriginatorInfo` (`originator_info.proto`, lines 5–13). -/
def OriginatorInfo.toMessage (info : OriginatorInfo) : Message MessageName :=
  plain .originatorInfo
    [.single (pointer info.senderId.toMessage), .single (.string (some info.senderEndpoint)),
      .single (.string info.senderMachine), .single (.string info.initiatorUserName)]

/-- `TransportMessage` (`transport_message.proto`, lines 8–22), without persistent peers. -/
def TransportMessage.toMessage (message : TransportMessage) : Message MessageName :=
  plain .transportMessage
    [.single (pointer message.id.toMessage), .single (pointer message.messageTypeId.toMessage),
      .single (.bytes message.contentBytes), .single (pointer message.originator.toMessage),
      .single (.string message.environment), flag message.wasPersisted, .repeated []]

/-- `Peer` (`peer.proto`, lines 5–13). -/
def Peer.toMessage (peer : Peer) : Message MessageName :=
  plain .peer
    [.single (pointer peer.id.toMessage), .single (.string (some peer.endpoint)),
      .single (.scalar .bool peer.isUp), flag peer.isResponding]

/-- `bcl.DateTime` (`bcl.proto`, lines 31–44). -/
def DateTime.toMessage (date : DateTime) : Message MessageName :=
  plain .dateTime
    [.flagged date.value.has (.scalar .sint64 date.value.value.toUInt64),
      .flagged date.scale.has (.scalar .enum date.scale.value.toUInt32)]

/-- `BindingKey` (`binding_key.proto`, lines 3–5). -/
def BindingKey.toMessage (key : BindingKey) : Message MessageName :=
  plain .bindingKey [.repeated (key.parts.map fun part => .string (some part))]

/-- `Subscription` (`subscription.proto`, lines 6–10). -/
def Subscription.toMessage (subscription : Subscription) : Message MessageName :=
  plain .subscription
    [.single (pointer subscription.messageTypeId.toMessage),
      .single (pointer subscription.bindingKey.toMessage)]

/-- `PeerDescriptor` (`peer_descriptor.proto`, lines 7–17). -/
def PeerDescriptor.toMessage (descriptor : PeerDescriptor) : Message MessageName :=
  plain .peerDescriptor
    [.single (pointer descriptor.peer.toMessage),
      .repeated (descriptor.subscriptions.map fun subscription => pointer subscription.toMessage),
      .single (.scalar .bool descriptor.isPersistent),
      .single (.message (descriptor.timestampUtc.map DateTime.toMessage)),
      flag descriptor.hasDebuggerAttached]

/-- `RegisterPeerResponse`. -/
def registerPeerResponse (descriptors : List PeerDescriptor) : Message MessageName :=
  plain .registerPeerResponse
    [.repeated (descriptors.map fun descriptor => pointer descriptor.toMessage)]

/-! ## What is read again -/

/-- The message can be packed, has no unknown fields, and is read again as `back`. -/
structure Written (message back : Message MessageName) : Prop where
  valid : message.valid MessageName.descriptor = true
  apart : message.all (Message.unknownApart MessageName.descriptor) = true
  normal : message.normal = back

/-- The members can be packed as elements of an array, and are read again as `back`. -/
structure AllWritten (type : FieldType MessageName) (members back : List (Member MessageName)) :
    Prop where
  hasType : members.all (·.hasType type) = true
  present : members.all Member.present = true
  valid : membersAll (Message.slotsValid MessageName.descriptor) members = true
  apart : membersAll (Message.unknownApart MessageName.descriptor) members = true
  normal : membersNormal members = back

theorem allWritten_strings (strs : List CString) :
    AllWritten .string (strs.map fun str => .string (some str))
      (strs.map fun str => .string (some str)) := by
  induction strs with
  | nil => exact ⟨rfl, rfl, rfl, rfl, rfl⟩
  | cons str strs ih =>
    obtain ⟨htype, hpresent, hvalid, hapart, hnormal⟩ := ih
    rw [List.map_cons]
    exact ⟨htype, hpresent, hvalid, hapart, congrArg (List.cons _) hnormal⟩

theorem allWritten_pointers {α : Type} (name : MessageName) (f g : α → Message MessageName)
    (hname : ∀ a, (f a).descriptor = name) (h : ∀ a, Written (f a) (g a)) (l : List α) :
    AllWritten (.message name) (l.map fun a => pointer (f a)) (l.map fun a => pointer (g a)) := by
  induction l with
  | nil => exact ⟨rfl, rfl, rfl, rfl, rfl⟩
  | cons a l ih =>
    obtain ⟨htype, hpresent, hvalid, hapart, hnormal⟩ := ih
    refine ⟨?_, ?_, ?_, ?_, ?_⟩
    · rw [List.map_cons, List.all_cons, htype, Bool.and_true]
      exact decide_eq_true (hname a)
    · rw [List.map_cons, List.all_cons, hpresent]
      rfl
    · rw [List.map_cons, membersAll, hvalid, Bool.and_true]
      exact (h a).valid
    · rw [List.map_cons, membersAll, hapart, Bool.and_true]
      exact (h a).apart
    · rw [List.map_cons, List.map_cons, membersNormal, hnormal, ← (h a).normal]
      rfl

theorem array_valid {type : FieldType MessageName} {members back : List (Member MessageName)}
    (h : AllWritten type members back) (id : UInt32) :
    (Slot.repeated members).valid (repeated id type) = true := by
  rw [Slot.valid, Slot.fits, Slot.checked, h.present, repeated, decide_eq_true rfl, h.hasType]
  rfl

/-- An array that is the only field. -/
theorem written_array {name : MessageName} {id : UInt32} {type : FieldType MessageName}
    {members back : List (Member MessageName)} (hfields : name.fields = [repeated id type])
    (h : AllWritten type members back) :
    Written (plain name [.repeated members]) (plain name [.repeated back]) := by
  have hslot := array_valid h id
  refine ⟨?_, ?_, ?_⟩
  · rw [Message.valid, plain, Message.all, slotsAll, slotAll, h.valid, Message.slotsValid]
    have hname : (MessageName.descriptor name).fields = [repeated id type] := hfields
    simp only [Message.descriptor, Message.slots, hname, slotsHold, hslot, slotsAll, Bool.and_self]
  · rw [plain, Message.all, slotsAll, slotAll, h.apart]
    rfl
  · rw [plain, Message.normal, slotsNormal, slotNormal, h.normal]
    rfl

theorem Guid.written (guid : Guid) : Written guid.toMessage guid.toMessage := ⟨rfl, rfl, rfl⟩

theorem MessageId.written (id : MessageId) : Written id.toMessage id.toMessage := ⟨rfl, rfl, rfl⟩

theorem MessageTypeId.written (id : MessageTypeId) : Written id.toMessage id.toMessage :=
  ⟨rfl, rfl, rfl⟩

theorem PeerId.written (id : PeerId) : Written id.toMessage id.toMessage := ⟨rfl, rfl, rfl⟩

theorem OriginatorInfo.written (info : OriginatorInfo) : Written info.toMessage info.toMessage :=
  ⟨rfl, rfl, rfl⟩

theorem flag_normal (s : Scalar Bool) : slotNormal (flag s) = flag s.transfer := by
  obtain ⟨has, value⟩ := s
  cases has <;> rfl

theorem TransportMessage.written (message : TransportMessage) :
    Written message.toMessage message.transfer.toMessage := by
  refine ⟨rfl, rfl, ?_⟩
  rw [TransportMessage.toMessage, plain, Message.normal]
  simp only [slotsNormal, flag_normal]
  rfl

theorem Peer.written (peer : Peer) : Written peer.toMessage peer.transfer.toMessage := by
  refine ⟨rfl, rfl, ?_⟩
  rw [Peer.toMessage, plain, Message.normal]
  simp only [slotsNormal, flag_normal]
  rfl

theorem DateTime.written (date : DateTime) : Written date.toMessage date.transfer.toMessage := by
  refine ⟨rfl, rfl, ?_⟩
  obtain ⟨⟨hasValue, value⟩, ⟨hasScale, scale⟩⟩ := date
  cases hasValue <;> cases hasScale <;> rfl

theorem BindingKey.written (key : BindingKey) : Written key.toMessage key.toMessage :=
  written_array rfl (allWritten_strings key.parts)

theorem Subscription.written (subscription : Subscription) :
    Written subscription.toMessage subscription.toMessage := by
  obtain ⟨hvalid, hapart, hnormal⟩ := subscription.bindingKey.written
  refine ⟨?_, ?_, ?_⟩
  · rw [Message.valid] at hvalid ⊢
    simp only [toMessage, plain, Message.all, slotsAll, slotAll, pointer, memberAll, hvalid,
      Bool.and_true]
    rfl
  · simp only [toMessage, plain, Message.all, slotsAll, slotAll, pointer, memberAll, hapart,
      Bool.and_true]
    rfl
  · simp only [toMessage, plain, Message.normal, slotsNormal, slotNormal, pointer, memberNormal,
      hnormal]
    rfl

theorem PeerDescriptor.written (descriptor : PeerDescriptor) :
    Written descriptor.toMessage descriptor.transfer.toMessage := by
  obtain ⟨hvalid, hapart, hnormal⟩ := descriptor.peer.written
  have hsubs := allWritten_pointers .subscription Subscription.toMessage Subscription.toMessage
    (fun _ => rfl) Subscription.written descriptor.subscriptions
  have hdate : (Member.message (descriptor.timestampUtc.map DateTime.toMessage)).hasType
        (.message .dateTime) = true ∧
      memberAll (Message.slotsValid MessageName.descriptor)
        (.message (descriptor.timestampUtc.map DateTime.toMessage)) = true ∧
      memberAll (Message.unknownApart MessageName.descriptor)
        (.message (descriptor.timestampUtc.map DateTime.toMessage)) = true ∧
      memberNormal (.message (descriptor.timestampUtc.map DateTime.toMessage)) =
        .message ((descriptor.timestampUtc.map DateTime.transfer).map DateTime.toMessage) := by
    cases descriptor.timestampUtc with
    | none => exact ⟨rfl, rfl, rfl, rfl⟩
    | some date =>
      exact ⟨rfl, date.written.valid, date.written.apart,
        congrArg (fun m => Member.message (some m)) date.written.normal⟩
  obtain ⟨htype, hdateValid, hdateApart, hdateNormal⟩ := hdate
  have hslots : slotsHold Slot.valid MessageName.peerDescriptor.fields
      descriptor.toMessage.slots = true := by
    have hsecond := array_valid hsubs 2
    have hfourth : (Slot.single (.message (descriptor.timestampUtc.map DateTime.toMessage))).valid
        (optional 4 (.message .dateTime)) = true := by
      rw [Slot.valid, Slot.fits, optional, htype]
      rfl
    rw [toMessage, plain, Message.slots, MessageName.fields, slotsHold, slotsHold, slotsHold,
      slotsHold, hsecond, hfourth]
    rfl
  have hpeer : memberAll (Message.slotsValid MessageName.descriptor)
      (pointer descriptor.peer.toMessage) = true := hvalid
  have hpeerApart : memberAll (Message.unknownApart MessageName.descriptor)
      (pointer descriptor.peer.toMessage) = true := hapart
  have hpeerNormal : memberNormal (pointer descriptor.peer.toMessage) =
      pointer descriptor.peer.transfer.toMessage :=
    congrArg (fun m => Member.message (some m)) hnormal
  refine ⟨?_, ?_, ?_⟩
  · rw [Message.valid, toMessage, plain, Message.all]
    simp only [slotsAll, slotAll, hpeer, hsubs.valid, hdateValid, Bool.true_and]
    rw [Message.slotsValid]
    exact (Bool.and_true _).trans hslots
  · rw [toMessage, plain, Message.all]
    simp only [slotsAll, slotAll, hpeerApart, hsubs.apart, hdateApart, Bool.true_and]
    rfl
  · rw [toMessage, plain, Message.normal]
    simp only [slotsNormal, slotNormal, hpeerNormal, hsubs.normal, hdateNormal, flag_normal]
    rfl

theorem registerPeerResponse_written (descriptors : List PeerDescriptor) :
    Written (registerPeerResponse descriptors)
      (registerPeerResponse (descriptors.map PeerDescriptor.transfer)) := by
  rw [registerPeerResponse, registerPeerResponse, List.map_map]
  exact written_array rfl (allWritten_pointers .peerDescriptor PeerDescriptor.toMessage
    (fun descriptor => descriptor.transfer.toMessage) (fun _ => rfl) PeerDescriptor.written
    descriptors)

end Cebus.Proto
