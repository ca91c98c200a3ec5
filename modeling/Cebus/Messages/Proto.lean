import Cebus.Utils.CString

/-!
# The generated message types

The structures that the protobuf compiler generates from the `.proto` files, and
what becomes of their fields when a message is packed and unpacked
(`protobuf-c.c`). An optional string or message is a pointer, and only an
optional field of another type has a flag that tells whether it is present.
-/

namespace Cebus.Proto

/-- An optional field with its flag `has_…`. -/
structure Scalar (α : Type) where
  has : Bool
  value : α
deriving DecidableEq

namespace Scalar

variable {α : Type} [Inhabited α]

/-- What is left of a field by `…__init`: no presence, and a value of zero. -/
def init : Scalar α := ⟨false, default⟩

/-- What is on the wire (`optional_field_pack`, lines 1193–1209). -/
def pack (s : Scalar α) : Option α := if s.has then some s.value else none

/-- The field of a message that is initialised and then filled from the wire
    (`parse_optional_member`, lines 2697–2710). -/
def unpack (wire : Option α) : Scalar α :=
  match wire with
  | none => init
  | some value => ⟨true, value⟩

/-- A field of a message that has been packed and unpacked. -/
def transfer (s : Scalar α) : Scalar α := unpack s.pack

theorem transfer_of_has (value : α) : transfer ⟨true, value⟩ = ⟨true, value⟩ := rfl

theorem transfer_of_not_has (value : α) : transfer ⟨false, value⟩ = init := rfl

end Scalar

/-- `bcl.Guid`. -/
structure Guid where
  lo : UInt64
  hi : UInt64
deriving DecidableEq

/-- `MessageId`. -/
structure MessageId where
  value : Guid
deriving DecidableEq

/-- `MessageTypeId`. -/
structure MessageTypeId where
  fullName : CString
deriving DecidableEq

/-- `PeerId`. -/
structure PeerId where
  value : CString
deriving DecidableEq

/-- `OriginatorInfo`. -/
structure OriginatorInfo where
  senderId : PeerId
  senderEndpoint : CString
  senderMachine : Option CString
  initiatorUserName : Option CString
deriving DecidableEq

/-- `TransportMessage`, without the persistent peers, which nothing reads or sets. -/
structure TransportMessage where
  id : MessageId
  messageTypeId : MessageTypeId
  contentBytes : List UInt8
  originator : OriginatorInfo
  environment : Option CString
  wasPersisted : Scalar Bool
deriving DecidableEq

/-- A message that has been packed and unpacked. -/
def TransportMessage.transfer (message : TransportMessage) : TransportMessage :=
  { message with wasPersisted := message.wasPersisted.transfer }

/-- `Peer`. -/
structure Peer where
  id : PeerId
  endpoint : CString
  isUp : Bool
  isResponding : Scalar Bool
deriving DecidableEq

/-- A peer that has been packed and unpacked. -/
def Peer.transfer (peer : Peer) : Peer :=
  { peer with isResponding := peer.isResponding.transfer }

/-- `bcl.DateTime`; `scale` is the number of the unit. -/
structure DateTime where
  value : Scalar Int64
  scale : Scalar Int32
deriving DecidableEq

/-- A date that has been packed and unpacked. -/
def DateTime.transfer (date : DateTime) : DateTime :=
  { value := date.value.transfer, scale := date.scale.transfer }

/-- `BindingKey`. -/
structure BindingKey where
  parts : List CString
deriving DecidableEq

/-- `Subscription`. -/
structure Subscription where
  messageTypeId : MessageTypeId
  bindingKey : BindingKey
deriving DecidableEq

/-- `PeerDescriptor`. -/
structure PeerDescriptor where
  peer : Peer
  subscriptions : List Subscription
  isPersistent : Bool
  timestampUtc : Option DateTime
  hasDebuggerAttached : Scalar Bool
deriving DecidableEq

/-- A descriptor that has been packed and unpacked. -/
def PeerDescriptor.transfer (descriptor : PeerDescriptor) : PeerDescriptor :=
  { descriptor with
    peer := descriptor.peer.transfer
    timestampUtc := descriptor.timestampUtc.map DateTime.transfer
    hasDebuggerAttached := descriptor.hasDebuggerAttached.transfer }

end Cebus.Proto
