import Cebus.Messages.TransportMessage
import Cebus.Subscription.BindingKey
import Cebus.Utils.Time

/-!
# Peer descriptors (`peer_descriptor.c`)

Building the protobuf message of a descriptor and reading one back, with the
parts for peers (`peer.c`), subscriptions (`subscription.c`) and dates (`bcl.c`).
-/

namespace Cebus

open LinkedList (Fault)

/-- `cb_subscription` (`subscription.h`). -/
structure PeerSubscription where
  messageTypeId : MessageTypeId
  bindingKey : BindingKey
deriving DecidableEq

/-- `cb_peer_descriptor` (`peer_descriptor.h`). -/
structure PeerDescriptor where
  peer : Peer
  subscriptions : List PeerSubscription
  isPersistent : Bool
  timestampUtc : Time.DateTime
  hasDebuggerAttached : Bool
deriving DecidableEq

/-! ## Dates -/

/-- `cb_date_time_since_epoch` (`time.c`, lines 226–230). -/
def Time.sinceEpoch (dt : Time.DateTime) : Time.DateTime := ⟨dt.ticks - Time.epochTicks⟩

/-- `cb_date_time_from_proto` (`bcl.c`, lines 6–9). -/
def dateTimeFromProto (proto : Option Proto.DateTime) : Except Fault Time.DateTime :=
  match proto with
  | none => .error .null
  | some proto => .ok ⟨proto.value.value.toUInt64 + Time.epochTicks⟩

/-- `cb_bcl_date_time_proto_init` (lines 11–22), with the scale `TICKS`. -/
def dateTimeProtoInit (date : Time.DateTime) : Proto.DateTime :=
  { value := ⟨true, (Time.sinceEpoch date).ticks.toInt64⟩, scale := ⟨true, 5⟩ }

/-! ## Peers -/

/-- `cb_peer_from_proto` (`peer.c`, lines 9–16). -/
def peerFromProto (proto : Proto.Peer) : Except Fault Peer := do
  let peerId ← peerIdSet proto.id.value
  .ok { peerId
        endpoint := proto.endpoint.strncpy 255
        isResponding := proto.isResponding.value
        isUp := proto.isUp }

/-- `cb_peer_proto_new` (lines 26–37). The flag `has_is_responding` is left as
    `peer__init` has set it. -/
def peerProtoNew (peer : Peer) : Proto.Peer :=
  { id := peerIdProtoNew peer.peerId
    endpoint := peer.endpoint
    isResponding := { (Proto.Scalar.init : Proto.Scalar Bool) with value := peer.isResponding }
    isUp := peer.isUp }

/-! ## Subscriptions -/

/-- `cb_subscription_from_proto` (`subscription.c`, lines 7–11). -/
def subscriptionFromProto (proto : Proto.Subscription) : Except Fault PeerSubscription := do
  let messageTypeId ← messageTypeIdFromProto proto.messageTypeId
  .ok { messageTypeId, bindingKey := BindingKey.fromProto proto.bindingKey }

/-- `cb_subscription_proto_new` (lines 26–35). -/
def subscriptionProtoNew (subscription : PeerSubscription) : Proto.Subscription :=
  { messageTypeId := messageTypeIdProtoNew subscription.messageTypeId
    bindingKey := BindingKey.protoNew subscription.bindingKey }

/-! ## Descriptors -/

/-- `cb_peer_descriptor_from_proto` (lines 9–30). Without subscriptions the array is
    left as it was. -/
def peerDescriptorFromProto (descriptor : PeerDescriptor) (proto : Proto.PeerDescriptor) :
    Except Fault PeerDescriptor := do
  let peer ← peerFromProto proto.peer
  let subscriptions ←
    if 0 < proto.subscriptions.length then proto.subscriptions.mapM subscriptionFromProto
    else .ok descriptor.subscriptions
  let timestampUtc ← dateTimeFromProto proto.timestampUtc
  .ok { peer
        subscriptions
        isPersistent := proto.isPersistent
        timestampUtc
        hasDebuggerAttached := proto.hasDebuggerAttached.value }

/-- `cb_peer_descriptor_proto_from` (lines 59–83). -/
def peerDescriptorProtoFrom (descriptor : PeerDescriptor) : Proto.PeerDescriptor :=
  { peer := peerProtoNew descriptor.peer
    subscriptions := descriptor.subscriptions.map subscriptionProtoNew
    isPersistent := descriptor.isPersistent
    timestampUtc := some (dateTimeProtoInit descriptor.timestampUtc)
    hasDebuggerAttached := ⟨true, false⟩ }

end Cebus
