import Cebus.Messages.Members
import Cebus.Messages.TransportRoundTrip

/-!
# Messages over the wire

What one peer packs into a buffer, the other one unpacks from these bytes.

* `unpackAs_cases`: bytes are refused, or all parts that are required are there.
* `overWire`: a structure that is packed is unpacked.
* `transportMessage_length`: the size of a transport message.
-/

namespace Cebus.Proto

open ProtobufC

/-! ## Unpacking structures -/

/-- A generated `…__unpack`, and the structure that it points to. -/
def unpackAs {α : Type} (name : MessageName) (read : Message MessageName → Option α)
    (data : List UInt8) : Except Failure α := do
  let message ← messageUnpack MessageName.descriptor name data
  match read message with
  | some a => .ok a
  | none => .error .wild

/-- `transport_message__unpack`. -/
def transportMessageUnpack : List UInt8 → Except Failure TransportMessage :=
  unpackAs .transportMessage TransportMessage.ofMessage

/-- `register_peer_response__unpack`. -/
def registerPeerResponseUnpack : List UInt8 → Except Failure (List PeerDescriptor) :=
  unpackAs .registerPeerResponse peerDescriptorsOf

variable {α : Type} {name : MessageName} {read : Message MessageName → Option α}
variable {message back : Message MessageName} {data : List UInt8}

/-- What is unpacked can be packed. -/
theorem packable_of_unpack (hdata : data.length < 2 ^ 32)
    (h : messageUnpack MessageName.descriptor name data = .ok message) : Packable name message := by
  obtain ⟨hname, haccepted⟩ := accepted_of_unpack hdata h
  exact ⟨hname, valid_of_accepted haccepted⟩

/-- **Bytes are refused, or all parts that are required are there.** -/
theorem unpackAs_cases (hread : ∀ m, Packable name m → ∃ a, read m = some a)
    (hdata : data.length < 2 ^ 32) :
    unpackAs name read data = .error .invalid ∨ ∃ a, unpackAs name read data = .ok a := by
  have heq := messageUnpack_eq MessageName.descriptor name hdata
  rw [unpackAs]
  cases hdecode : decode MessageName.descriptor name data with
  | none =>
    rw [heq, hdecode]
    exact .inl rfl
  | some message =>
    rw [hdecode] at heq
    obtain ⟨a, ha⟩ := hread message (packable_of_unpack hdata heq)
    rw [heq]
    exact .inr ⟨a, by rw [answer, Fallible.ok_bind, ha]⟩

/-! ## Packing and unpacking -/

theorem two_mul_maxMembers : 2 * maxMembers = 2 ^ 28 - 32 := rfl

/-- **A structure that is packed is unpacked**, up to a size of 2^28 - 32 bytes. -/
theorem overWire {a : α} (h : Written message back) (hname : message.descriptor = name)
    (hread : read back = some a)
    (hlen : (message.bytes MessageName.descriptor).length ≤ 2 * maxMembers) :
    packMessage MessageName.descriptor message =
        .ok ((message.bytes MessageName.descriptor).map some,
          (message.bytes MessageName.descriptor).length) ∧
      unpackAs name read (message.bytes MessageName.descriptor) = .ok a := by
  have hroom := hasRoom_of_length MessageName.descriptor message h.valid h.apart hlen
  have hreadable : message.readable MessageName.descriptor = true := by
    have hboth : Message.separate MessageName.descriptor = fun m =>
        m.hasRoom MessageName.descriptor && m.unknownApart MessageName.descriptor := rfl
    rw [Message.readable, hboth, Message.all_and, hroom, h.apart, Bool.and_self]
  rw [two_mul_maxMembers] at hlen
  refine ⟨packMessage_eq MessageName.descriptor h.valid (by omega), ?_⟩
  rw [unpackAs, messageUnpack_eq _ _ (by omega), ← hname,
    decode_bytes _ _ h.valid hreadable (by omega), h.normal, answer, Fallible.ok_bind, hread]

/-! ## The size of a transport message -/

section

/-- How many bytes a slot takes. -/
def slotLength (field : FieldDescriptor MessageName) (slot : Slot MessageName) : ℕ :=
  ((slotRecords MessageName.descriptor field slot).flatMap UnknownField.bytes).length

/-- The number of bytes that the fields take. -/
def slotsLength (fields : List (FieldDescriptor MessageName))
    (slots : List (Slot MessageName)) : ℕ :=
  ((slotsRecords MessageName.descriptor fields slots).flatMap UnknownField.bytes).length

variable {field : FieldDescriptor MessageName} {fields : List (FieldDescriptor MessageName)}
variable {slot : Slot MessageName} {slots : List (Slot MessageName)}
variable {member : Member MessageName} {payload : List UInt8} {size : ℕ}

theorem length_plain (name : MessageName) (slots : List (Slot MessageName)) :
    ((plain name slots).bytes MessageName.descriptor).length = slotsLength name.fields slots := by
  rw [Message.bytes, plain, Message.records, List.append_nil]
  rfl

theorem slotsLength_cons : slotsLength (field :: fields) (slot :: slots) =
    slotLength field slot + slotsLength fields slots := by
  rw [slotsLength, slotsRecords, List.flatMap_append, List.length_append]
  rfl

theorem slotsLength_nil : slotsLength [] [] = 0 := rfl

theorem getTagSize_le (id : UInt32) : getTagSize id ≤ 5 := by
  rw [getTagSize]
  split_ifs <;> omega

theorem slotLength_single_le (field : FieldDescriptor MessageName) (member : Member MessageName) :
    slotLength field (.single member) ≤ 5 + (memberData MessageName.descriptor member).length := by
  have htag := getTagSize_le field.id
  rw [slotLength, slotRecords]
  split_ifs with hthere
  · rw [List.flatMap_singleton, UnknownField.length_bytes]
    exact Nat.add_le_add_right htag _
  · exact Nat.zero_le _

theorem delimited_le (h : payload.length ≤ size) (hsize : size < 2 ^ 32) :
    (delimited payload).length ≤ size + 5 := by
  have hlen := Base128.length_encode_le_iff (k := 4).mpr
    (Nat.lt_trans (Nat.lt_of_le_of_lt h hsize) (show 2 ^ 32 < 128 ^ 5 by decide))
  rw [length_delimited]
  omega

theorem slotLength_string_le (field : FieldDescriptor MessageName) {str : CString}
    (h : str.bytes.length ≤ 254) : slotLength field (.single (.string (some str))) ≤ 264 := by
  have hslot := slotLength_single_le field (.string (some str))
  have hdata := delimited_le h (show 254 < 2 ^ 32 by decide)
  rw [memberData] at hslot
  omega

theorem slotLength_pointer_le (field : FieldDescriptor MessageName)
    (h : (message.bytes MessageName.descriptor).length ≤ size) (hsize : size < 2 ^ 32) :
    slotLength field (.single (pointer message)) ≤ size + 10 := by
  have hslot := slotLength_single_le field (pointer message)
  have hdata := delimited_le h hsize
  rw [pointer, memberData, ← Message.bytes] at hslot
  exact Nat.le_trans hslot (by omega)

theorem slotLength_fixed64_le (field : FieldDescriptor MessageName) (value : UInt64) :
    slotLength field (.single (.scalar .fixed64 value)) ≤ 13 := by
  have hslot := slotLength_single_le field (.scalar .fixed64 value)
  have hsize : ScalarType.fixed64.fixedSize = some 8 := rfl
  have hdata := ScalarType.length_fixed hsize value
  rw [memberData] at hslot
  omega

theorem Guid.length_le (guid : Guid) :
    (guid.toMessage.bytes MessageName.descriptor).length ≤ 26 := by
  have hlo := slotLength_fixed64_le (required 1 (.scalar .fixed64)) guid.lo
  have hhi := slotLength_fixed64_le (required 2 (.scalar .fixed64)) guid.hi
  rw [toMessage, length_plain, MessageName.fields, slotsLength_cons, slotsLength_cons,
    slotsLength_nil]
  exact Nat.add_le_add hlo hhi

theorem MessageId.length_le (id : MessageId) :
    (id.toMessage.bytes MessageName.descriptor).length ≤ 36 := by
  rw [toMessage, length_plain, MessageName.fields, slotsLength_cons, slotsLength_nil]
  exact slotLength_pointer_le _ id.value.length_le (by decide)

theorem MessageTypeId.length_le (id : MessageTypeId) (h : id.fullName.bytes.length ≤ 254) :
    (id.toMessage.bytes MessageName.descriptor).length ≤ 264 := by
  rw [toMessage, length_plain, MessageName.fields, slotsLength_cons, slotsLength_nil]
  exact slotLength_string_le _ h

theorem PeerId.length_le (id : PeerId) (h : id.value.bytes.length ≤ 254) :
    (id.toMessage.bytes MessageName.descriptor).length ≤ 264 := by
  rw [toMessage, length_plain, MessageName.fields, slotsLength_cons, slotsLength_nil]
  exact slotLength_string_le _ h

end

end Cebus.Proto

namespace Cebus

open ProtobufC

theorem originatorInfo_length {info : OriginatorInfo} (hid : Fits info.senderId.value)
    (hendpoint : Fits info.senderEndpoint) (hmachine : Fits info.senderMachine)
    (huser : Fits info.initiatorUserName) :
    ((originatorInfoProtoNew info).toMessage.bytes Proto.MessageName.descriptor).length ≤ 1066 := by
  have hsender := Proto.slotLength_pointer_le (Proto.required 1 (.message .peerId))
    ((peerIdProtoNew info.senderId).length_le hid.1) (by decide)
  have hsecond := Proto.slotLength_string_le (Proto.required 2 .string) hendpoint.1
  have hthird := Proto.slotLength_string_le (Proto.optional 3 .string) hmachine.1
  have hfourth := Proto.slotLength_string_le (Proto.optional 4 .string) huser.1
  rw [Proto.OriginatorInfo.toMessage, Proto.length_plain, Proto.MessageName.fields,
    Proto.slotsLength_cons, Proto.slotsLength_cons, Proto.slotsLength_cons, Proto.slotsLength_cons,
    Proto.slotsLength_nil]
  exact Nat.add_le_add hsender (Nat.add_le_add hsecond (Nat.add_le_add hthird hfourth))

/-- **The size of a transport message**: its data, and less than 2^11 bytes around it. -/
theorem transportMessage_length {message : TransportMessage} (h : message.StringsFit)
    (hdata : message.data.length < 2 ^ 32) :
    ((transportMessageProtoNew message).toMessage.bytes Proto.MessageName.descriptor).length ≤
      message.data.length + 2 ^ 11 := by
  have hfirst := Proto.slotLength_pointer_le (Proto.required 1 (.message .messageId))
    (messageIdProtoNew message.id).length_le (by decide)
  have hsecond := Proto.slotLength_pointer_le (Proto.required 2 (.message .messageTypeId))
    ((messageTypeIdProtoNew message.messageTypeId).length_le h.messageTypeId.1) (by decide)
  have hthird := Proto.slotLength_single_le (Proto.required 3 .bytes) (.bytes message.data)
  have hcontent := Proto.delimited_le (Nat.le_refl message.data.length) hdata
  have hfourth := Proto.slotLength_pointer_le (Proto.required 4 (.message .originatorInfo))
    (originatorInfo_length h.senderId h.senderEndpoint h.senderMachine h.initiatorUserName)
    (by decide)
  have hfifth := Proto.slotLength_string_le (Proto.optional 5 .string) h.environment.1
  rw [memberData] at hthird
  have hsum : ((transportMessageProtoNew message).toMessage.bytes
      Proto.MessageName.descriptor).length =
      Proto.slotLength (Proto.required 1 (.message .messageId))
          (.single (Proto.pointer (messageIdProtoNew message.id).toMessage)) +
        (Proto.slotLength (Proto.required 2 (.message .messageTypeId))
            (.single (Proto.pointer (messageTypeIdProtoNew message.messageTypeId).toMessage)) +
          (Proto.slotLength (Proto.required 3 .bytes) (.single (.bytes message.data)) +
            (Proto.slotLength (Proto.required 4 (.message .originatorInfo))
                (.single (Proto.pointer (originatorInfoProtoNew message.originator).toMessage)) +
              Proto.slotLength (Proto.optional 5 .string)
                (.single (.string (some message.environment)))))) := by
    rw [Proto.TransportMessage.toMessage, Proto.length_plain, Proto.MessageName.fields]
    simp only [Proto.slotsLength_cons]
    rfl
  omega

/-- A message with texts that fit, without too much data. -/
structure TransportMessage.CanBeSent (message : TransportMessage) : Prop where
  stringsFit : message.StringsFit
  data : message.data.length + 2 ^ 11 ≤ 2 ^ 28 - 32

/-- **A transport message over the wire**: it is packed into as many bytes as it takes, and the
    peer that unpacks them reads all of it into any memory, but for the flag that it was
    persisted. -/
theorem transportMessage_overWire (message : TransportMessage) (h : message.CanBeSent)
    (before : TransportMessage) :
    ∃ bytes proto, packMessage Proto.MessageName.descriptor
          (transportMessageProtoNew message).toMessage = .ok (bytes.map some, bytes.length) ∧
      Proto.transportMessageUnpack bytes = .ok proto ∧
      transportMessageFromProto before proto = .ok { message with wasPersisted := false } := by
  have hdata := h.data
  have hlen := transportMessage_length h.stringsFit (by omega)
  obtain ⟨hpack, hunpack⟩ := Proto.overWire (transportMessageProtoNew message).written rfl
    (Proto.TransportMessage.ofMessage_toMessage _) (Nat.le_trans hlen hdata)
  exact ⟨_, (transportMessageProtoNew message).transfer, hpack, hunpack,
    transportMessage_decoded h.stringsFit before⟩

theorem transportMessage_overWire_persisted :
    ∃ bytes proto, packMessage Proto.MessageName.descriptor
          (transportMessageProtoNew persistedMessage).toMessage =
        .ok (bytes.map some, bytes.length) ∧
      Proto.transportMessageUnpack bytes = .ok proto ∧
      transportMessageFromProto persistedMessage proto =
        .ok { persistedMessage with wasPersisted := false } :=
  transportMessage_overWire persistedMessage ⟨persistedMessage_stringsFit, by decide⟩
    persistedMessage

/-- **Required parts are there**: whatever bytes come from a peer, fewer than 2^32, they are
    refused, or the id, the type, the originator and the sender of a transport message are there
    with what they require; and so are the peer and the types and keys of the subscriptions in
    every descriptor of a response. The environment, the machine and user of the originator and
    the timestamp are optional, and may be `NULL`. -/
theorem required_unpacked (data : List UInt8) (hdata : data.length < 2 ^ 32) :
    (Proto.transportMessageUnpack data = .error .invalid ∨
        ∃ proto, Proto.transportMessageUnpack data = .ok proto) ∧
      (Proto.registerPeerResponseUnpack data = .error .invalid ∨
        ∃ protos, Proto.registerPeerResponseUnpack data = .ok protos) :=
  ⟨Proto.unpackAs_cases (fun _ h => Proto.TransportMessage.exists_ofMessage h) hdata,
    Proto.unpackAs_cases (fun _ h => Proto.exists_peerDescriptorsOf h) hdata⟩

/-- A transport message without an environment. -/
def sampleMessage : Proto.TransportMessage :=
  { transportMessageProtoNew persistedMessage with environment := none }

/-- A descriptor with a subscription, without a timestamp. -/
def sampleDescriptor : Proto.PeerDescriptor :=
  { peer :=
      { id := ⟨CString.ofChars "Abc.Peer.0".toList⟩
        endpoint := CString.ofChars "tcp://a:1".toList
        isUp := true
        isResponding := ⟨true, true⟩ }
    subscriptions :=
      [⟨⟨CString.ofChars "Abc.Ping".toList⟩, ⟨[CString.ofChars "a".toList, .ofChars "*".toList]⟩⟩]
    isPersistent := false
    timestampUtc := none
    hasDebuggerAttached := ⟨false, false⟩ }

/-- A message and a response that are not refused, without what is optional. -/
theorem required_unpacked_samples :
    (∃ proto, Proto.transportMessageUnpack
        (sampleMessage.toMessage.bytes Proto.MessageName.descriptor) = .ok proto) ∧
      ∃ protos, Proto.registerPeerResponseUnpack
        ((Proto.registerPeerResponse [sampleDescriptor]).bytes Proto.MessageName.descriptor) =
          .ok protos := by
  have hmessage := (Proto.overWire sampleMessage.written rfl
    (Proto.TransportMessage.ofMessage_toMessage _) (by decide)).2
  have hresponse := (Proto.overWire (Proto.registerPeerResponse_written [sampleDescriptor]) rfl
    (Proto.peerDescriptorsOf_registerPeerResponse _) (by decide)).2
  constructor
  · refine (required_unpacked _ (by decide)).1.resolve_left fun hinvalid => ?_
    exact absurd (hmessage.symm.trans hinvalid) (fun h => nomatch h)
  · refine (required_unpacked _ (by decide)).2.resolve_left fun hinvalid => ?_
    exact absurd (hresponse.symm.trans hinvalid) (fun h => nomatch h)

end Cebus
