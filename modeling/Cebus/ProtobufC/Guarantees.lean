import Cebus.Messages.Descriptors
import Cebus.ProtobufC.FieldOrder
import Cebus.ProtobufC.Rewrite

/-!
# What the library guarantees

The main results about packing and unpacking. The descriptors are those of any `proto2` messages
whose fields have no default values and belong to no `oneof`; with a default value a field that is
not there is unpacked as something else than zero, and of the members of a `oneof` only the last
one is kept. Lengths are bounded as the 32-bit sizes of the library and its slabs demand.

* `messagePack_fills`: the size that is computed is what is written, below 2^32 bytes.
* `messageUnpack_decodes`: unpacking fewer than 2^32 bytes reads the message that they mean, or
  answers NULL; bytes with more than `maxMembers` records in one message mean none.
* `messageUnpack_packMessage`: a message that is packed in fewer than 2^31 bytes is unpacked.
* `unpacked_checked`: what is unpacked passes the check.
* `rewritten_iff`: what is unpacked can be packed and unpacked again, but for the number 0, if it
  then has fewer than 2^31 bytes and the slabs have room for its records.
* `messageUnpack_fieldOrder`: fields may come in any order.
-/

namespace Cebus.ProtobufC

variable {δ : Type} (descriptors : δ → MessageDescriptor δ)

/-! ## Packing -/

/-- **What `protobuf_c_message_pack` writes** at any place with enough room are the records of
    the message, as many bytes as `protobuf_c_message_get_packed_size` says, and nothing else
    changes; `cb_pack_message` fills its buffer with them. -/
theorem messagePack_fills [DecidableEq δ] (message : Message δ)
    (htyped : message.typed descriptors = true) (hcheck : messageCheck descriptors message = true)
    (hlt : (message.bytes descriptors).length < 2 ^ 32) :
    messageGetPackedSize descriptors message = .ok (message.bytes descriptors).length ∧
      (∀ before rest : Block UInt8, (message.bytes descriptors).length ≤ rest.length →
        messagePack descriptors message (before ++ rest) before.length =
          .ok (before ++ ((message.bytes descriptors).map some ++
            rest.drop (message.bytes descriptors).length), (message.bytes descriptors).length)) ∧
      packMessage descriptors message =
        .ok ((message.bytes descriptors).map some, (message.bytes descriptors).length) := by
  have hv : message.valid descriptors = true := by
    rw [Message.valid_eq, htyped, hcheck, Bool.and_self]
  exact ⟨messageGetPackedSize_eq descriptors message hv hlt,
    messagePack_writes descriptors message hv hlt, packMessage_eq descriptors hv hlt⟩

/-- A peer whose optional flag is not set, with an unknown field. -/
def samplePeer : Message Proto.MessageName :=
  .mk .peer
    [.single (.message (some
        (.mk .peerId [.single (.string (some (CString.ofChars "Abc.Peer.0".toList)))] []))),
      .single (.string (some (CString.ofChars "tcp://a:1".toList))),
      .single (.scalar .bool true), .flagged false (.scalar .bool true)]
    [⟨9, WireType.lengthPrefixed, delimited [1, 2]⟩]

theorem messagePack_fills_samplePeer :
    packMessage Proto.MessageName.descriptor samplePeer =
      .ok ((samplePeer.bytes Proto.MessageName.descriptor).map some, 31) :=
  (messagePack_fills Proto.MessageName.descriptor samplePeer (by decide) (by decide)
    (by decide)).2.2

/-! ## Unpacking -/

/-- **Fields may come in any order**: bytes with the same records for each field, in their
    order, and the same unknown records, are unpacked into the same message. -/
theorem messageUnpack_fieldOrder {descriptor : δ} {data data' : List UInt8}
    {records records' : List UnknownField} (hdata : data.length < 2 ^ 32)
    (hdata' : data'.length < 2 ^ 32) (hitems : recordScanner.items data = some records)
    (hitems' : recordScanner.items data' = some records')
    (hsame : SameFields (descriptors descriptor) records records') :
    messageUnpack descriptors descriptor data = messageUnpack descriptors descriptor data' := by
  rw [messageUnpack_eq descriptors descriptor hdata, messageUnpack_eq descriptors descriptor hdata',
    decode_eq_of_sameFields hitems hitems' hsame]

/-- The halves of a `Guid`. -/
def guidRecords : List UnknownField :=
  [⟨1, WireType.bits64, [1, 2, 3, 4, 5, 6, 7, 8]⟩, ⟨2, WireType.bits64, [8, 7, 6, 5, 4, 3, 2, 1]⟩]

theorem messageUnpack_fieldOrder_guid :
    messageUnpack Proto.MessageName.descriptor .guid (guidRecords.flatMap UnknownField.bytes) =
      messageUnpack Proto.MessageName.descriptor .guid
        (guidRecords.reverse.flatMap UnknownField.bytes) :=
  messageUnpack_fieldOrder Proto.MessageName.descriptor (by decide) (by decide)
    (items_bytes (by decide)) (items_bytes (by decide)) ⟨by decide, by decide⟩

/-! ## Round trips -/

section

variable [DecidableEq δ]

/-- **A message that is packed is unpacked**, without the values of its optional fields that are
    not set, if it takes fewer than 2^31 bytes and is readable: no message in it has more than
    `maxMembers` records or an unknown field that is taken for another one. -/
theorem messageUnpack_packMessage (message : Message δ) (htyped : message.typed descriptors = true)
    (hcheck : messageCheck descriptors message = true)
    (hreadable : message.readable descriptors = true)
    (hlt : (message.bytes descriptors).length < 2 ^ 31) :
    ∃ bytes, packMessage descriptors message = .ok (bytes.map some, bytes.length) ∧
      messageUnpack descriptors message.descriptor bytes = .ok message.normal := by
  have hv : message.valid descriptors = true := by
    rw [Message.valid_eq, htyped, hcheck, Bool.and_self]
  refine ⟨_, packMessage_eq descriptors hv (by omega), ?_⟩
  rw [messageUnpack_eq descriptors message.descriptor (by omega),
    decode_bytes descriptors message hv hreadable hlt]
  rfl

theorem messageUnpack_packMessage_samplePeer :
    ∃ bytes, packMessage Proto.MessageName.descriptor samplePeer =
        .ok (bytes.map some, bytes.length) ∧
      messageUnpack Proto.MessageName.descriptor .peer bytes = .ok samplePeer.normal :=
  messageUnpack_packMessage Proto.MessageName.descriptor samplePeer (by decide) (by decide)
    (by decide) (by decide)

/-- **What is unpacked** from fewer than 2^32 bytes is of the descriptor that was asked for; it
    and all messages in it are laid out as their descriptors say and pass
    `protobuf_c_message_check`, also those that were merged. -/
theorem unpacked_checked {descriptor : δ} {data : List UInt8} {message : Message δ}
    (hdata : data.length < 2 ^ 32)
    (hunpack : messageUnpack descriptors descriptor data = .ok message) :
    message.descriptor = descriptor ∧ message.typed descriptors = true ∧
      messageCheck descriptors message = true := by
  obtain ⟨hname, haccepted⟩ := accepted_of_unpack hdata hunpack
  have hv := valid_of_accepted haccepted
  rw [Message.valid_eq, Bool.and_eq_true] at hv
  exact ⟨hname, hv⟩

theorem unpacked_checked_peerId :
    ∃ message : Message Proto.MessageName,
      messageUnpack Proto.MessageName.descriptor .peerId [0x0a, 0x01, 0x41] = .ok message ∧
        message.typed Proto.MessageName.descriptor = true ∧
        messageCheck Proto.MessageName.descriptor message = true :=
  have hunpack : messageUnpack Proto.MessageName.descriptor .peerId [0x0a, 0x01, 0x41] =
      .ok (.mk .peerId [.single (.string (some (copiedString [0x41])))] []) := rfl
  ⟨_, hunpack, (unpacked_checked Proto.MessageName.descriptor (by decide) hunpack).2⟩

/-- **What is unpacked can be packed**, and if that takes fewer than 2^31 bytes with room for the
    records of each message, it is unpacked again exactly when no unknown field has the number 0:
    that number is read when more bytes than needed hold it, but it is refused where it is
    written. Merged messages may have more records than there is room for. -/
theorem rewritten_iff {descriptor : δ} {data : List UInt8} {message : Message δ}
    (hdata : data.length < 2 ^ 32)
    (hunpack : messageUnpack descriptors descriptor data = .ok message)
    (hroom : message.all (Message.hasRoom descriptors) = true)
    (hlt : (message.bytes descriptors).length < 2 ^ 31) :
    ∃ bytes, packMessage descriptors message = .ok (bytes.map some, bytes.length) ∧
      (messageUnpack descriptors descriptor bytes = .ok message ↔
        message.all Message.numbered = true) := by
  obtain ⟨hname, haccepted⟩ := accepted_of_unpack hdata hunpack
  refine ⟨_, packMessage_eq descriptors (valid_of_accepted haccepted) (by omega), ?_⟩
  rw [messageUnpack_eq descriptors descriptor (by omega)]
  cases hnumbered : message.all Message.numbered with
  | true =>
    rw [decode_bytes_of_decode (decode_of_unpack hdata hunpack) hnumbered hroom hlt]
    exact iff_of_true rfl rfl
  | false =>
    rw [← hname, decode_bytes_eq_none message haccepted hlt hnumbered]
    exact iff_of_false (fun h => nomatch h) Bool.false_ne_true

/-- An unknown field with the number 9, and one whose number 0 takes two bytes. -/
theorem rewritten_iff_pingPeerCommand :
    (∃ bytes, packMessage Proto.MessageName.descriptor (.mk .pingPeerCommand [] [⟨9, 0, [5]⟩]) =
        .ok (bytes.map some, bytes.length) ∧
      messageUnpack Proto.MessageName.descriptor .pingPeerCommand bytes =
        .ok (.mk .pingPeerCommand [] [⟨9, 0, [5]⟩])) ∧
    ∃ bytes, packMessage Proto.MessageName.descriptor (.mk .pingPeerCommand [] [⟨0, 0, [5]⟩]) =
        .ok (bytes.map some, bytes.length) ∧
      messageUnpack Proto.MessageName.descriptor .pingPeerCommand bytes ≠
        .ok (.mk .pingPeerCommand [] [⟨0, 0, [5]⟩]) := by
  have hnine : messageUnpack Proto.MessageName.descriptor .pingPeerCommand [0x48, 0x05] =
      .ok (.mk .pingPeerCommand [] [⟨9, 0, [5]⟩]) := rfl
  have hzero : messageUnpack Proto.MessageName.descriptor .pingPeerCommand [0x80, 0x00, 0x05] =
      .ok (.mk .pingPeerCommand [] [⟨0, 0, [5]⟩]) := rfl
  obtain ⟨bytes, hpack, hiff⟩ := rewritten_iff Proto.MessageName.descriptor (by decide) hnine
    (by decide) (by decide)
  obtain ⟨bytes', hpack', hiff'⟩ := rewritten_iff Proto.MessageName.descriptor (by decide) hzero
    (by decide) (by decide)
  exact ⟨⟨bytes, hpack, hiff.mpr (by decide)⟩, bytes', hpack', mt hiff'.mp (by decide)⟩

end

end Cebus.ProtobufC
