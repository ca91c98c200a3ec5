import Cebus.Messages.TransportRoundTrip
import Cebus.Peer.PeerDescriptor

/-!
# Peer descriptors on the wire

* `dateTime_roundTrip`: the shift of a timestamp by the epoch is undone, with any
  wrap-around of the ticks.
* `peerDescriptor_decoded`: what comes back of a descriptor.
* `survives_iff`: all of it comes back exactly when neither of two flags is set, and
  a descriptor without subscriptions is read into one without.
-/

namespace Cebus

open LinkedList (Fault)

/-! ## The parts of a descriptor -/

theorem dateTime_roundTrip (date : Time.DateTime) :
    dateTimeFromProto (some (dateTimeProtoInit date).transfer) = .ok date := by
  simp only [dateTimeFromProto, dateTimeProtoInit, Proto.DateTime.transfer,
    Proto.Scalar.transfer_of_has, Time.sinceEpoch]
  rw [UInt64.toUInt64_toInt64, UInt64.sub_add_cancel]

/-- A peer comes back as one that does not respond. -/
theorem peer_decoded {peer : Peer} (hid : Fits peer.peerId.value) (hendpoint : Fits peer.endpoint) :
    peerFromProto (peerProtoNew peer).transfer = .ok { peer with isResponding := false } := by
  simp only [peerFromProto, peerProtoNew, peerIdProtoNew, Proto.Peer.transfer,
    peerIdSet_value hid.2, strncpy_of_fits hendpoint]
  rfl

/-- The key that is read: `NULL` reads as `#`. -/
def PeerSubscription.readKey (subscription : PeerSubscription) : PeerSubscription :=
  { subscription with bindingKey := some (subscription.bindingKey.getD [tokenSharp]) }

theorem readKey_readKey :
    PeerSubscription.readKey ∘ PeerSubscription.readKey = PeerSubscription.readKey :=
  rfl

theorem subscription_decoded {subscription : PeerSubscription}
    (h : Fits subscription.messageTypeId.value) :
    subscriptionFromProto (subscriptionProtoNew subscription) = .ok subscription.readKey := by
  simp only [subscriptionFromProto, subscriptionProtoNew, messageTypeId_roundTrip h,
    Fallible.ok_bind, PeerSubscription.readKey, BindingKey.fromProto, BindingKey.protoNew]
  cases subscription.bindingKey <;> rfl

theorem subscriptions_decoded {subscriptions : List PeerSubscription}
    (h : ∀ subscription ∈ subscriptions, Fits subscription.messageTypeId.value) :
    (subscriptions.map subscriptionProtoNew).mapM subscriptionFromProto =
      .ok (subscriptions.map PeerSubscription.readKey) := by
  induction subscriptions with
  | nil => rfl
  | cons subscription subscriptions ih =>
    rw [List.map_cons, List.mapM_cons, subscription_decoded (h _ List.mem_cons_self),
      ih fun other hmem => h other (List.mem_cons_of_mem _ hmem)]
    rfl

/-! ## Descriptors -/

/-- The strings of a descriptor fit. -/
structure PeerDescriptor.StringsFit (descriptor : PeerDescriptor) : Prop where
  peerId : Fits descriptor.peer.peerId.value
  endpoint : Fits descriptor.peer.endpoint
  messageTypeId : ∀ subscription ∈ descriptor.subscriptions, Fits subscription.messageTypeId.value

/-- The descriptors agree, the keys of their subscriptions as they are read. -/
structure PeerDescriptor.Same (descriptor other : PeerDescriptor) : Prop where
  peer : descriptor.peer = other.peer
  subscriptions : descriptor.subscriptions.map PeerSubscription.readKey =
    other.subscriptions.map PeerSubscription.readKey
  isPersistent : descriptor.isPersistent = other.isPersistent
  timestampUtc : descriptor.timestampUtc = other.timestampUtc
  hasDebuggerAttached : descriptor.hasDebuggerAttached = other.hasDebuggerAttached

/-- A descriptor that is built, packed, unpacked and read into `before` comes back. -/
def PeerDescriptor.Survives (descriptor before : PeerDescriptor) : Prop :=
  ∃ back, peerDescriptorFromProto before (peerDescriptorProtoFrom descriptor).transfer =
    .ok back ∧ descriptor.Same back

/-- What comes back of a descriptor. -/
theorem peerDescriptor_decoded {descriptor : PeerDescriptor} (h : descriptor.StringsFit)
    (before : PeerDescriptor) :
    peerDescriptorFromProto before (peerDescriptorProtoFrom descriptor).transfer =
      .ok { descriptor with
        peer := { descriptor.peer with isResponding := false }
        subscriptions :=
          if descriptor.subscriptions = [] then before.subscriptions
          else descriptor.subscriptions.map PeerSubscription.readKey
        hasDebuggerAttached := false } := by
  simp only [peerDescriptorFromProto, peerDescriptorProtoFrom, Proto.PeerDescriptor.transfer,
    peer_decoded h.peerId h.endpoint, Fallible.ok_bind, Option.map_some, dateTime_roundTrip,
    subscriptions_decoded h.messageTypeId]
  cases descriptor.subscriptions with
  | nil => rfl
  | cons subscription subscriptions => rfl

/-- **A descriptor survives the wire exactly when its peer does not respond, it has no
    debugger attached, and, if it has no subscriptions, there are none where it is
    read to.** -/
theorem survives_iff (descriptor before : PeerDescriptor) (h : descriptor.StringsFit) :
    descriptor.Survives before ↔
      descriptor.peer.isResponding = false ∧ descriptor.hasDebuggerAttached = false ∧
        (descriptor.subscriptions = [] → before.subscriptions = []) := by
  unfold PeerDescriptor.Survives
  rw [peerDescriptor_decoded h]
  constructor
  · rintro ⟨back, hback, hsame⟩
    obtain rfl := Except.ok.inj hback
    refine ⟨congrArg Peer.isResponding hsame.peer, hsame.hasDebuggerAttached, fun hnil => ?_⟩
    have hsubs := hsame.subscriptions
    rw [if_pos hnil, hnil] at hsubs
    exact List.map_eq_nil_iff.mp hsubs.symm
  · rintro ⟨hresponding, hdebugger, hnone⟩
    refine ⟨_, rfl, ?_, ?_, rfl, rfl, hdebugger⟩
    · rw [← hresponding]
    · dsimp only
      split_ifs with hnil
      · rw [hnil, hnone hnil]
      · rw [List.map_map, readKey_readKey]

/-- A descriptor of a peer that responds, without subscriptions. -/
def respondingDescriptor : PeerDescriptor :=
  { peer :=
      { peerId := ⟨CString.ofChars "Abc.Peer.1".toList, by decide⟩
        endpoint := CString.ofChars "tcp://a:1".toList
        isUp := true
        isResponding := true }
    subscriptions := []
    isPersistent := false
    timestampUtc := ⟨0⟩
    hasDebuggerAttached := false }

theorem respondingDescriptor_stringsFit : respondingDescriptor.StringsFit :=
  ⟨by decide, by decide, fun _ hmem => by cases hmem⟩

/-- A descriptor of a peer that does not respond, with two subscriptions, one of them for all
    keys. -/
def subscribedDescriptor : PeerDescriptor :=
  { respondingDescriptor with
    peer := { respondingDescriptor.peer with isResponding := false }
    subscriptions :=
      [⟨⟨CString.ofChars "Abc.Ordered".toList, by decide⟩,
          some [CString.ofChars "a".toList, tokenStar]⟩,
        ⟨⟨CString.ofChars "Abc.Shipped".toList, by decide⟩, none⟩] }

theorem subscribedDescriptor_stringsFit : subscribedDescriptor.StringsFit := by
  refine ⟨by decide, by decide, fun subscription hmem => ?_⟩
  obtain rfl | hmem := List.mem_cons.mp hmem
  · decide
  · obtain rfl := List.mem_singleton.mp hmem
    decide

theorem survives_respondingDescriptor :
    ¬ respondingDescriptor.Survives respondingDescriptor ∧
      subscribedDescriptor.Survives respondingDescriptor :=
  ⟨mt (survives_iff _ _ respondingDescriptor_stringsFit).mp (by decide),
    (survives_iff _ _ subscribedDescriptor_stringsFit).mpr ⟨rfl, rfl, fun hnil => by cases hnil⟩⟩

/-- The peer comes back as one that does not respond. -/
theorem not_survives :
    ¬ ∀ descriptor before : PeerDescriptor, descriptor.StringsFit → descriptor.Survives before := by
  intro h
  obtain ⟨back, hback, hsame⟩ :=
    h respondingDescriptor respondingDescriptor respondingDescriptor_stringsFit
  rw [peerDescriptor_decoded respondingDescriptor_stringsFit] at hback
  obtain rfl := Except.ok.inj hback
  exact absurd (congrArg Peer.isResponding hsame.peer) (by decide)

end Cebus
