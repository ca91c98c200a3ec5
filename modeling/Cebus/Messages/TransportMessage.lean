import Cebus.Lib.LittleEndian
import Cebus.Messages.Proto
import Cebus.Peer.Peer

/-!
# Transport messages (`transport_message.c`, `originator_info.c`, `message_id.c`)

Building a protobuf message from a transport message and reading one back. What a
function writes to is passed to it with what is there before, which for fresh
memory can be anything.
-/

namespace Cebus

open LinkedList (Fault)

/-! ## Types -/

/-- `cb_uuid_t` (`uuid.h`). -/
structure Uuid where
  bits : List UInt8
  length_bits : bits.length = 16
deriving DecidableEq

/-- `cb_message_id` (`message_id.h`). -/
structure MessageId where
  value : Uuid
deriving DecidableEq

/-- `cb_message_type_id` (`message_type_id.h`): a terminated string in an array of 255. -/
@[ext] structure MessageTypeId where
  value : CString
  length_lt : value.bytes.length < 255

instance : DecidableEq MessageTypeId := fun _ _ => decidable_of_iff' _ MessageTypeId.ext_iff

/-- `originator_info` (`originator_info.h`). -/
structure OriginatorInfo where
  senderId : PeerId
  senderEndpoint : CString
  senderMachine : CString
  initiatorUserName : CString
deriving DecidableEq

/-- `cb_transport_message` (`transport_message.h`), with the bytes that `data` points to. -/
structure TransportMessage where
  id : MessageId
  messageTypeId : MessageTypeId
  originator : OriginatorInfo
  environment : CString
  wasPersisted : Bool
  data : List UInt8
deriving DecidableEq

/-! ## Message ids -/

/-- `cb_guid_proto_new` (`message_id.c`, lines 10–19): eight bytes are copied over
    each number, on a machine that has the least significant byte first. -/
def guidProtoNew (uuid : Uuid) : Proto.Guid :=
  { hi := UInt64.ofNat (LittleEndian.ofBytes (uuid.bits.take 8))
    lo := UInt64.ofNat (LittleEndian.ofBytes ((uuid.bits.drop 8).take 8)) }

/-- `cb_message_id_from_guid` (lines 21–29). -/
def messageIdFromGuid (guid : Proto.Guid) : MessageId :=
  ⟨⟨LittleEndian.toBytes 8 guid.hi.toNat ++ LittleEndian.toBytes 8 guid.lo.toNat, by simp⟩⟩

/-- `cb_message_id_from_proto` (lines 36–39). -/
def messageIdFromProto (proto : Proto.MessageId) : MessageId := messageIdFromGuid proto.value

/-- `cb_message_id_proto_new` (lines 46–53). -/
def messageIdProtoNew (messageId : MessageId) : Proto.MessageId := ⟨guidProtoNew messageId.value⟩

/-! ## Message types -/

/-- `cb_message_type_id_set` without arguments for the format
    (`message_type_id.c`, lines 10–16). -/
def messageTypeIdSet (fmt : CString) : Except Fault MessageTypeId := do
  let value ← CString.vsnprintf 255 fmt
  if h : value.bytes.length < 255 then .ok ⟨value, h⟩ else .error .wild

/-- `cb_message_type_id_from_proto` (lines 47–51). -/
def messageTypeIdFromProto (proto : Proto.MessageTypeId) : Except Fault MessageTypeId :=
  messageTypeIdSet proto.fullName

/-- `cb_message_type_id_proto_new` (lines 53–59). -/
def messageTypeIdProtoNew (typeId : MessageTypeId) : Proto.MessageTypeId := ⟨typeId.value⟩

/-! ## Originators -/

/-- `cb_peer_id_proto_new` (`peer_id.c`, lines 31–34). -/
def peerIdProtoNew (id : PeerId) : Proto.PeerId := ⟨id.value⟩

/-- `cb_originator_info_from_proto` (`originator_info.c`, lines 29–41) from the second
    test on: a field that is absent is left as it was. -/
def originatorInfoFill (info : OriginatorInfo) (senderId : PeerId) (proto : Proto.OriginatorInfo) :
    OriginatorInfo :=
  { senderId
    senderEndpoint := proto.senderEndpoint.strncpy 255
    senderMachine :=
      match proto.senderMachine with
      | none => info.senderMachine
      | some machine => machine.strncpy 255
    initiatorUserName :=
      match proto.initiatorUserName with
      | none => info.initiatorUserName
      | some user => user.strncpy 255 }

/-- `originator_info_proto_new` (lines 43–54). -/
def originatorInfoProtoNew (info : OriginatorInfo) : Proto.OriginatorInfo :=
  { senderId := peerIdProtoNew info.senderId
    senderEndpoint := info.senderEndpoint
    senderMachine := some info.senderMachine
    initiatorUserName := some info.initiatorUserName }

/-! ## Transport messages -/

/-- `cb_transport_message_from_proto` (`transport_message.c`, lines 37–49), given what
    its two calls of `vsnprintf` print, for the type and the sender. -/
def transportMessageFill (message : TransportMessage) (messageTypeId : MessageTypeId)
    (senderId : PeerId) (proto : Proto.TransportMessage) : Except Fault TransportMessage :=
  match proto.environment with
  | none => .error .null
  | some environment =>
    .ok { id := messageIdFromProto proto.id
          messageTypeId
          originator := originatorInfoFill message.originator senderId proto.originator
          environment := environment.strncpy 255
          wasPersisted := proto.wasPersisted.value
          data := proto.contentBytes }

/-- `cb_transport_message_from_proto`. -/
def transportMessageFromProto (message : TransportMessage) (proto : Proto.TransportMessage) :
    Except Fault TransportMessage := do
  let messageTypeId ← messageTypeIdFromProto proto.messageTypeId
  let senderId ← peerIdSet proto.originator.senderId.value
  transportMessageFill message messageTypeId senderId proto

/-- `cb_transport_message_proto_new` (lines 56–71). The flag `has_was_persisted` is
    left as `transport_message__init` has set it. -/
def transportMessageProtoNew (message : TransportMessage) : Proto.TransportMessage :=
  { id := messageIdProtoNew message.id
    messageTypeId := messageTypeIdProtoNew message.messageTypeId
    contentBytes := message.data
    originator := originatorInfoProtoNew message.originator
    environment := some message.environment
    wasPersisted := { (Proto.Scalar.init : Proto.Scalar Bool) with value := message.wasPersisted } }

end Cebus
