import Cebus.Messages.TransportRoundTrip
import Cebus.Peer.PeerDescriptor

/-!
# Identifiers that are received or copied

The setters of peer ids and of message type ids take a format, and the text that is received or
copied is given to them as one.

* `peerIdSet_iff`, `messageTypeIdSet_iff`: the texts that a setter stores as they are.
* `storedVerbatim_iff`: on all paths, the texts without a `%`.
-/

namespace Cebus

open LinkedList (Fault)

/-! ## The paths -/

/-- `cb_originator_info_from_proto` (`originator_info.c`, lines 29–41). -/
def originatorInfoFromProto (info : OriginatorInfo) (proto : Proto.OriginatorInfo) :
    Except Fault OriginatorInfo := do
  let senderId ← peerIdSet proto.senderId.value
  .ok (originatorInfoFill info senderId proto)

/-- `cb_peer_id_clone` (`peer_id.c`, lines 46–51). -/
def peerIdClone (src : PeerId) : Except Fault PeerId := peerIdSet src.value

/-- `cb_message_type_id_copy` (`message_type_id.c`, lines 26–30); the bytes behind the terminator
    are filled with zeros. -/
def messageTypeIdCopy (src : MessageTypeId) : MessageTypeId :=
  ⟨src.value.strncpy 255, Nat.lt_of_le_of_lt (List.length_take_le' _ _) src.length_lt⟩

/-- `cb_message_type_id_eq` (lines 42–45). -/
def messageTypeIdEq (lhs rhs : MessageTypeId) : Bool := CString.strncmpEq lhs.value rhs.value 255

/-- On every path the identifier that is made from `s` holds `s`, and copies are equal to what
    they are copies of. -/
structure StoredVerbatim (s : CString) : Prop where
  peer : ∀ proto : Proto.Peer, proto.id.value = s →
    ∃ peer, peerFromProto proto = .ok peer ∧ peer.peerId.value = s
  originator : ∀ (info : OriginatorInfo) (proto : Proto.OriginatorInfo), proto.senderId.value = s →
    ∃ info', originatorInfoFromProto info proto = .ok info' ∧ info'.senderId.value = s
  copy : ∀ src : PeerId, src.value = s →
    ∃ dst, peerIdCopy src = .ok dst ∧ dst.value = s ∧ peerIdEq dst src = true
  clone : ∀ src : PeerId, src.value = s →
    ∃ dst, peerIdClone src = .ok dst ∧ dst.value = s ∧ peerIdEq dst src = true
  messageTypeId : ∀ proto : Proto.MessageTypeId, proto.fullName = s →
    ∃ typeId, messageTypeIdFromProto proto = .ok typeId ∧ typeId.value = s
  messageTypeIdCopy : ∀ src : MessageTypeId, src.value = s →
    (messageTypeIdCopy src).value = s ∧ messageTypeIdEq (messageTypeIdCopy src) src = true

/-! ## The setters -/

section Setters

variable {s : CString} (h : s.bytes.length ≤ 254)

include h

/-- What a setter with an array of 255 stores is the text itself if that contains no `%`. -/
theorem setter_iff {ι : Type} {mk : (value : CString) → value.bytes.length < 255 → ι}
    {text : ι → CString} (hmk : ∀ value hlt, text (mk value hlt) = value) :
    (∃ id, (CString.vsnprintf 255 s >>= fun value =>
      if hlt : value.bytes.length < 255 then Except.ok (mk value hlt) else .error .wild) = .ok id ∧
        text id = s) ↔ s.Plain := by
  rw [← CString.vsnprintf_eq_self_iff 255 h]
  constructor
  · rintro ⟨id, hset, rfl⟩
    obtain ⟨value, hvalue, hid⟩ := Fallible.bind_eq_ok.mp hset
    split_ifs at hid with hlt
    rw [hvalue, ← Except.ok.inj hid, hmk]
  · intro hprint
    have hlt := Nat.lt_succ_of_le h
    refine ⟨mk s hlt, ?_, hmk s hlt⟩
    rw [hprint, Fallible.ok_bind, dif_pos hlt]

/-- **A peer id holds the text that it is set to** if the text contains no `%`. -/
theorem peerIdSet_iff : (∃ id, peerIdSet s = .ok id ∧ id.value = s) ↔ s.Plain :=
  setter_iff h fun _ _ => rfl

/-- **A message type id holds the text that it is set to** if the text contains no `%`. -/
theorem messageTypeIdSet_iff :
    (∃ typeId, messageTypeIdSet s = .ok typeId ∧ typeId.value = s) ↔ s.Plain :=
  setter_iff h fun _ _ => rfl

/-- **Identifiers are stored verbatim** if they contain no `%`. -/
theorem storedVerbatim_iff : StoredVerbatim s ↔ s.Plain := by
  constructor
  · intro hall
    exact (messageTypeIdSet_iff h).mp (hall.messageTypeId ⟨s⟩ rfl)
  · intro hplain
    obtain ⟨id, hset, hid⟩ := (peerIdSet_iff h).mpr hplain
    have hcopy (src : PeerId) (hsrc : src.value = s) :
        ∃ dst, peerIdSet src.value = .ok dst ∧ dst.value = s ∧ peerIdEq dst src = true := by
      refine ⟨id, hsrc ▸ hset, hid, ?_⟩
      rw [peerIdEq, hid, hsrc]
      exact decide_eq_true rfl
    refine ⟨?_, ?_, hcopy, hcopy, ?_, ?_⟩
    · rintro proto rfl
      have hread : peerFromProto proto = .ok
          { peerId := id, endpoint := proto.endpoint.strncpy 255, isUp := proto.isUp,
            isResponding := proto.isResponding.value } := by
        rw [peerFromProto, hset, Fallible.ok_bind]
      exact ⟨_, hread, hid⟩
    · rintro info proto rfl
      have hread : originatorInfoFromProto info proto = .ok (originatorInfoFill info id proto) := by
        rw [originatorInfoFromProto, hset, Fallible.ok_bind]
      exact ⟨_, hread, hid⟩
    · rintro proto rfl
      exact (messageTypeIdSet_iff h).mpr hplain
    · rintro src rfl
      have hsame : (Cebus.messageTypeIdCopy src).value = src.value :=
        CString.take_of_length_le (Nat.le_of_lt src.length_lt)
      refine ⟨hsame, ?_⟩
      rw [messageTypeIdEq, hsame]
      exact decide_eq_true rfl

end Setters

/-- The identifier `Peer.0`. -/
theorem storedVerbatim_plain : StoredVerbatim (CString.ofChars ['P', 'e', 'e', 'r', '.', '0']) :=
  (storedVerbatim_iff (s := CString.ofChars ['P', 'e', 'e', 'r', '.', '0']) (by decide)).mpr
    (by decide)

/-- The identifier `100%%` is stored as `100%`. -/
theorem not_forall_storedVerbatim :
    ¬∀ s : CString, s.bytes.length ≤ 254 → StoredVerbatim s := by
  intro h
  have hplain := (storedVerbatim_iff (s := CString.ofChars ['1', '0', '0', '%', '%'])
    (by decide)).mp (h _ (by decide))
  exact absurd hplain (by decide)

end Cebus
