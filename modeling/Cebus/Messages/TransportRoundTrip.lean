import Cebus.Messages.TransportMessage

/-!
# Transport messages on the wire

Each part of a message comes back from its protobuf message as it was, if its
strings fit in their arrays and contain no directive of a format.

* `transportMessage_decoded`: what comes back of a message.
* `survivesWire_iff`: all of it comes back exactly when it was not persisted.
-/

namespace Cebus

open LinkedList (Fault)

/-- The string is terminated in an array of 255 and contains no `%`. -/
def Fits (s : CString) : Prop := s.bytes.length ≤ 254 ∧ s.Plain

instance (s : CString) : Decidable (Fits s) := inferInstanceAs (Decidable (_ ∧ _))

theorem strncpy_of_fits {s : CString} (h : Fits s) : s.strncpy 255 = s := by
  have hlen := h.1
  exact CString.take_of_length_le (by omega)

theorem vsnprintf_of_fits {s : CString} (h : Fits s) : CString.vsnprintf 255 s = .ok s := by
  have hlen := h.1
  rw [CString.vsnprintf_of_plain h.2, CString.take_of_length_le (by omega)]

/-! ## The parts of a message -/

/-- Each half of an id is stored in a number and loaded from it. -/
theorem toBytes_ofBytes_word {bs : List UInt8} (h : bs.length = 8) :
    LittleEndian.toBytes 8 (UInt64.ofNat (LittleEndian.ofBytes bs)).toNat = bs := by
  have hlt := LittleEndian.ofBytes_lt bs
  rw [h] at hlt
  rw [UInt64.toNat_ofNat_of_lt' hlt, ← h]
  exact LittleEndian.toBytes_ofBytes bs

theorem messageId_roundTrip (id : MessageId) : messageIdFromProto (messageIdProtoNew id) = id := by
  obtain ⟨⟨bits, hbits⟩⟩ := id
  simp only [messageIdFromProto, messageIdProtoNew, messageIdFromGuid, guidProtoNew,
    MessageId.mk.injEq, Uuid.mk.injEq]
  have hlow : (bits.drop 8).take 8 = bits.drop 8 := List.take_of_length_le (by simp [hbits])
  rw [hlow, toBytes_ofBytes_word (by simp [hbits]), toBytes_ofBytes_word (by simp [hbits]),
    List.take_append_drop]

theorem messageTypeIdSet_of_fits {typeId : MessageTypeId} (h : Fits typeId.value) :
    messageTypeIdSet typeId.value = .ok typeId := by
  unfold messageTypeIdSet
  rw [vsnprintf_of_fits h, Fallible.ok_bind, dif_pos typeId.length_lt]

theorem messageTypeId_roundTrip {typeId : MessageTypeId} (h : Fits typeId.value) :
    messageTypeIdFromProto (messageTypeIdProtoNew typeId) = .ok typeId :=
  messageTypeIdSet_of_fits h

theorem originatorInfo_roundTrip {info : OriginatorInfo} (before : OriginatorInfo)
    (hendpoint : Fits info.senderEndpoint) (hmachine : Fits info.senderMachine)
    (huser : Fits info.initiatorUserName) :
    originatorInfoFill before info.senderId (originatorInfoProtoNew info) = info := by
  simp only [originatorInfoFill, originatorInfoProtoNew, strncpy_of_fits hendpoint,
    strncpy_of_fits hmachine, strncpy_of_fits huser]

/-! ## Messages -/

/-- The strings of a message fit. -/
structure TransportMessage.StringsFit (message : TransportMessage) : Prop where
  messageTypeId : Fits message.messageTypeId.value
  senderId : Fits message.originator.senderId.value
  senderEndpoint : Fits message.originator.senderEndpoint
  senderMachine : Fits message.originator.senderMachine
  initiatorUserName : Fits message.originator.initiatorUserName
  environment : Fits message.environment

/-- A message that is built, packed, unpacked and read into any memory comes back. -/
def TransportMessage.SurvivesWire (message : TransportMessage) : Prop :=
  ∀ before, transportMessageFromProto before (transportMessageProtoNew message).transfer =
    .ok message

/-- What comes back of a message: all but the flag, which reads as false. -/
theorem transportMessage_decoded {message : TransportMessage} (h : message.StringsFit)
    (before : TransportMessage) :
    transportMessageFromProto before (transportMessageProtoNew message).transfer =
      .ok { message with wasPersisted := false } := by
  have hsender : peerIdSet (originatorInfoProtoNew message.originator).senderId.value =
      .ok message.originator.senderId := peerIdSet_value h.senderId.2
  simp only [transportMessageFromProto, transportMessageProtoNew, Proto.TransportMessage.transfer,
    messageTypeId_roundTrip h.messageTypeId, Fallible.ok_bind, hsender, transportMessageFill,
    originatorInfo_roundTrip before.originator h.senderEndpoint h.senderMachine
      h.initiatorUserName,
    messageId_roundTrip, strncpy_of_fits h.environment]
  rfl

/-- **A message survives the wire exactly when it was not persisted.** -/
theorem survivesWire_iff (message : TransportMessage) (h : message.StringsFit) :
    message.SurvivesWire ↔ message.wasPersisted = false := by
  simp only [TransportMessage.SurvivesWire, transportMessage_decoded h, Except.ok.injEq]
  constructor
  · intro hsame
    exact congrArg TransportMessage.wasPersisted (hsame message).symm
  · rintro hflag -
    rw [← hflag]

/-- A message that was persisted. -/
def persistedMessage : TransportMessage :=
  { id := ⟨⟨List.range 16 |>.map UInt8.ofNat, by decide⟩⟩
    messageTypeId := ⟨CString.ofChars "Abc.Ping".toList, by decide⟩
    originator :=
      { senderId := ⟨CString.ofChars "Abc.Peer.0".toList, by decide⟩
        senderEndpoint := CString.ofChars "tcp://a:1".toList
        senderMachine := CString.ofChars "a".toList
        initiatorUserName := CString.ofChars "u".toList }
    environment := CString.ofChars "dev".toList
    wasPersisted := true
    data := [1, 2, 3] }

theorem persistedMessage_stringsFit : persistedMessage.StringsFit where
  messageTypeId := by decide
  senderId := by decide
  senderEndpoint := by decide
  senderMachine := by decide
  initiatorUserName := by decide
  environment := by decide

theorem survivesWire_persistedMessage :
    ¬ persistedMessage.SurvivesWire ∧
      { persistedMessage with wasPersisted := false }.SurvivesWire :=
  ⟨mt (survivesWire_iff _ persistedMessage_stringsFit).mp (by decide),
    (survivesWire_iff { persistedMessage with wasPersisted := false }
      ⟨by decide, by decide, by decide, by decide, by decide, by decide⟩).mpr rfl⟩

/-- The flag of a persisted message is lost. -/
theorem not_survivesWire :
    ¬ ∀ message : TransportMessage, message.StringsFit → message.SurvivesWire := by
  intro h
  have hback := h persistedMessage persistedMessage_stringsFit persistedMessage
  rw [transportMessage_decoded persistedMessage_stringsFit] at hback
  exact absurd (congrArg TransportMessage.wasPersisted (Except.ok.inj hback)) (by decide)

end Cebus
