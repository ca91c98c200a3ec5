import Cebus.Directory.PeerDirectory

/-!
# The response to a registration

`cb_peer_directory_handle_register_peer_response` takes one error code for a refusal. With any
other one the payload is read, and its descriptors are stored.

* `readable_iff`: the descriptors that are read.
* `storable_iff`: the lists of descriptors that are stored.
* `acceptsOnly_iff`: when exactly the accepted registrations count as success.
-/

namespace Cebus.PeerDirectory

open Bus (CommandResult)
open LinkedList (Fault)

variable {directory directory' : Directory} {descriptor d : PeerDescriptor}
  {proto : Proto.PeerDescriptor} {id key : PeerId}

/-! ## What a response should do -/

/-- The call returns; it returns `cb_peer_directory_ok` exactly for an error code of 0, which is
    what `cb_peer_directory_unregister` takes for a success, with a payload that unpacks; and
    otherwise the peers are as they were. -/
def AcceptsOnly (unpack : List UInt8 → Option (List Proto.PeerDescriptor))
    (descriptor : PeerDescriptor) (directory : Directory) (commandResult : CommandResult) : Prop :=
  ∃ directory' rc,
    handleRegisterPeerResponse unpack descriptor directory commandResult = .ok (directory', rc) ∧
      (rc = .ok ↔ commandResult.errorCode = 0 ∧ (unpack commandResult.data).isSome = true) ∧
      (rc ≠ .ok → directory'.peers = directory.peers)

/-- A descriptor with this id can be read: its texts are formats that need no argument, and it has
    a timestamp. -/
structure Readable (proto : Proto.PeerDescriptor) (id : PeerId) : Prop where
  peerId : peerIdSet proto.peer.id.value = .ok id
  messageTypeIds : ∀ subscription ∈ proto.subscriptions,
    ∃ typeId, messageTypeIdSet subscription.messageTypeId.fullName = .ok typeId
  timestamp : proto.timestampUtc ≠ none

/-- The descriptors can be read one after the other, and the id of a peer that is not known yet
    can be copied to the `key` of its entry. -/
def Storable : (PeerId → Prop) → List Proto.PeerDescriptor → Prop
  | _, [] => True
  | known, proto :: rest => ∃ id key, Readable proto id ∧
      (known id ∧ key = id ∨ ¬known id ∧ peerIdCopy id = .ok key) ∧
      Storable (fun other => other = key ∨ known other) rest

/-- The directory has an entry for the peer. -/
def Known (directory : Directory) (id : PeerId) : Prop := directory.peers id ≠ none

/-! ## Descriptors -/

/-- The parts of a descriptor that is read. -/
theorem peerDescriptorFromProto_eq_ok : peerDescriptorFromProto descriptor proto = .ok d ↔
    ∃ peer subscriptions timestampUtc, peerFromProto proto.peer = .ok peer ∧
      (if 0 < proto.subscriptions.length then proto.subscriptions.mapM subscriptionFromProto
        else .ok descriptor.subscriptions) = .ok subscriptions ∧
      dateTimeFromProto proto.timestampUtc = .ok timestampUtc ∧
      { peer, subscriptions, isPersistent := proto.isPersistent, timestampUtc
        hasDebuggerAttached := proto.hasDebuggerAttached.value } = d := by
  rw [peerDescriptorFromProto]
  split_ifs
  all_goals
    simp only [Fallible.bind_eq_ok, Except.ok.injEq]
    constructor
    · rintro ⟨peer, hpeer, subscriptions, hsubs, time, htime, rfl⟩
      exact ⟨peer, subscriptions, time, hpeer, hsubs, htime, rfl⟩
    · rintro ⟨peer, subscriptions, time, hpeer, hsubs, htime, rfl⟩
      exact ⟨peer, hpeer, subscriptions, hsubs, time, htime, rfl⟩

/-- **A descriptor is read** if its texts need no argument and it has a timestamp. -/
theorem readable_iff (descriptor : PeerDescriptor) : Readable proto id ↔
    ∃ d, peerDescriptorFromProto descriptor proto = .ok d ∧ d.peer.peerId = id := by
  constructor
  · rintro ⟨hid, htypes, htime⟩
    obtain ⟨time, htime⟩ := Option.ne_none_iff_exists'.mp htime
    have hpeer : peerFromProto proto.peer = .ok
        { peerId := id, endpoint := proto.peer.endpoint.strncpy 255, isUp := proto.peer.isUp
          isResponding := proto.peer.isResponding.value } := by
      rw [peerFromProto, hid, Fallible.ok_bind]
    have hsubs : ∃ subscriptions,
        (if 0 < proto.subscriptions.length then proto.subscriptions.mapM subscriptionFromProto
          else .ok descriptor.subscriptions) = .ok subscriptions := by
      split_ifs
      · refine Fallible.exists_mapM_iff.mpr fun subscription hmem => ?_
        obtain ⟨typeId, htype⟩ := htypes subscription hmem
        refine ⟨⟨typeId, BindingKey.fromProto subscription.bindingKey⟩, ?_⟩
        rw [subscriptionFromProto, messageTypeIdFromProto, htype, Fallible.ok_bind]
      · exact ⟨_, rfl⟩
    obtain ⟨subscriptions, hsubs⟩ := hsubs
    have hdate : dateTimeFromProto proto.timestampUtc =
        .ok ⟨time.value.value.toUInt64 + Time.epochTicks⟩ := by
      rw [htime]
      rfl
    have hread := peerDescriptorFromProto_eq_ok.mpr ⟨_, subscriptions, _, hpeer, hsubs, hdate, rfl⟩
    exact ⟨_, hread, rfl⟩
  · rintro ⟨d, hread, rfl⟩
    obtain ⟨peer, subscriptions, time, hpeer, hsubs, htime, rfl⟩ :=
      peerDescriptorFromProto_eq_ok.mp hread
    refine ⟨?_, fun subscription hmem => ?_, ?_⟩
    · obtain ⟨peerId, hid, hpeer⟩ := Fallible.bind_eq_ok.mp hpeer
      obtain rfl := Except.ok.inj hpeer
      exact hid
    · rw [if_pos (List.length_pos_of_mem hmem)] at hsubs
      obtain ⟨read, hsub⟩ := Fallible.exists_mapM_iff.mp ⟨_, hsubs⟩ subscription hmem
      obtain ⟨typeId, htype, -⟩ := Fallible.bind_eq_ok.mp hsub
      exact ⟨typeId, htype⟩
    · intro hnone
      rw [hnone] at htime
      cases htime

/-- **A descriptor is stored** if the peer is known, or its id can be copied. -/
theorem addOrUpdateEntry_iff : (∃ directory', addOrUpdateEntry directory d = .ok directory') ↔
    Known directory d.peer.peerId ∨ ∃ key, peerIdCopy d.peer.peerId = .ok key := by
  cases hentry : directory.peers d.peer.peerId with
  | none =>
    have hknown : ¬Known directory d.peer.peerId := not_not.mpr hentry
    rw [or_iff_right hknown]
    simp only [addOrUpdateEntry, hentry, entryNew, peerCopy]
    cases hcopy : peerIdCopy d.peer.peerId with
    | error e => exact iff_of_false (fun h => nomatch h) (fun h => nomatch h)
    | ok key => exact iff_of_true ⟨_, rfl⟩ ⟨key, rfl⟩
  | some entry =>
    refine iff_of_true ?_ (Or.inl fun h => ?_)
    · simp only [addOrUpdateEntry, hentry]
      exact ⟨_, rfl⟩
    · rw [hentry] at h
      cases h

/-- A stored peer is known under its key. -/
theorem known_of_addOrUpdateEntry (h : addOrUpdateEntry directory d = .ok directory') :
    ∃ key, (Known directory d.peer.peerId ∧ key = d.peer.peerId ∨
        ¬Known directory d.peer.peerId ∧ peerIdCopy d.peer.peerId = .ok key) ∧
      Known directory' = fun other => other = key ∨ Known directory other := by
  have hupdate (key : PeerId) (entry : Entry) :
      (fun other => Function.update directory.peers key (some entry) other ≠ none) =
        fun other => other = key ∨ directory.peers other ≠ none := by
    funext other
    rw [Function.update_apply]
    split_ifs with heq
    · exact propext (iff_of_true (fun h => nomatch h) (Or.inl heq))
    · exact propext (or_iff_right heq).symm
  cases hentry : directory.peers d.peer.peerId with
  | none =>
    simp only [addOrUpdateEntry, hentry] at h
    obtain ⟨key, hkey, h⟩ := Fallible.bind_eq_ok.mp h
    obtain ⟨entry, -, h⟩ := Fallible.bind_eq_ok.mp h
    obtain rfl := Except.ok.inj h
    exact ⟨key, Or.inr ⟨not_not.mpr hentry, hkey⟩, hupdate key entry⟩
  | some entry =>
    simp only [addOrUpdateEntry, hentry] at h
    obtain rfl := Except.ok.inj h
    refine ⟨d.peer.peerId, Or.inl ⟨fun hnone => ?_, rfl⟩, hupdate _ _⟩
    rw [hentry] at hnone
    cases hnone

/-- **The descriptors of a response are stored** if they are storable one after the other. -/
theorem storable_iff (descriptor : PeerDescriptor) {protos : List Proto.PeerDescriptor} :
    (∃ directory', protos.foldlM
      (fun directory proto => do
        addOrUpdateEntry directory (← peerDescriptorFromProto descriptor proto))
      directory = .ok directory') ↔ Storable (Known directory) protos := by
  induction protos generalizing directory with
  | nil => exact iff_of_true ⟨directory, rfl⟩ trivial
  | cons proto rest ih =>
    simp only [List.foldlM_cons, Fallible.bind_eq_ok]
    constructor
    · rintro ⟨final, next, ⟨d, hread, hadd⟩, hrest⟩
      obtain ⟨key, hkey, hknown⟩ := known_of_addOrUpdateEntry hadd
      refine ⟨d.peer.peerId, key, (readable_iff descriptor).mpr ⟨d, hread, rfl⟩, hkey, ?_⟩
      rw [← hknown]
      exact ih.mp ⟨final, hrest⟩
    · rintro ⟨id, key, hreadable, hkey, hrest⟩
      obtain ⟨d, hread, rfl⟩ := (readable_iff descriptor).mp hreadable
      obtain ⟨next, hadd⟩ := addOrUpdateEntry_iff.mpr
        (hkey.imp And.left fun h => ⟨key, h.2⟩)
      obtain ⟨key', hkey', hknown⟩ := known_of_addOrUpdateEntry hadd
      have hsame : key' = key := by
        obtain ⟨hk, rfl⟩ | ⟨hk, hcopy⟩ := hkey
        · exact hkey'.elim And.right fun h => absurd hk h.1
        · refine hkey'.elim (fun h => absurd h.1 hk) fun h => ?_
          exact Except.ok.inj (h.2.symm.trans hcopy)
      rw [← hsame, ← hknown] at hrest
      obtain ⟨final, hfinal⟩ := ih.mpr hrest
      exact ⟨final, next, ⟨d, hread, hadd⟩, hfinal⟩

/-! ## Responses -/

/-- **Only an accepted registration counts as success** if the error code is the one that is tested,
    or the payload does not unpack, or the error code is 0 and the descriptors can be stored. -/
theorem acceptsOnly_iff (unpack : List UInt8 → Option (List Proto.PeerDescriptor))
    (descriptor : PeerDescriptor) (directory : Directory) (commandResult : CommandResult) :
    AcceptsOnly unpack descriptor directory commandResult ↔
      commandResult.errorCode = errorPeerAlreadyExists ∨ unpack commandResult.data = none ∨
        commandResult.errorCode = 0 ∧
          ∃ protos, unpack commandResult.data = some protos ∧
            Storable (Known directory) protos := by
  have hcodes : errorPeerAlreadyExists ≠ 0 := by decide
  unfold AcceptsOnly handleRegisterPeerResponse
  by_cases hexists : commandResult.errorCode = errorPeerAlreadyExists
  · refine iff_of_true ⟨directory, .peerAlreadyExists, by rw [if_pos hexists], ?_, fun _ => rfl⟩
      (Or.inl hexists)
    exact iff_of_false (fun h => nomatch h) fun h => hcodes (hexists.symm.trans h.1)
  · rw [or_iff_right hexists]
    simp only [if_neg hexists]
    cases hunpack : unpack commandResult.data with
    | none =>
      refine iff_of_true ⟨directory, .deserializationError, rfl, ?_, fun _ => rfl⟩ (Or.inl rfl)
      exact iff_of_false (fun h => nomatch h) (fun h => nomatch h.2)
    | some protos =>
      rw [or_iff_right (fun h => nomatch h)]
      simp only [Fallible.bind_eq_ok, Except.ok.injEq, Prod.mk.injEq]
      constructor
      · rintro ⟨final, rc, ⟨stored, hstored, rfl, rfl⟩, hrc, -⟩
        exact ⟨(hrc.mp rfl).1, protos, rfl, (storable_iff descriptor).mp ⟨stored, hstored⟩⟩
      · rintro ⟨hzero, same, hsame, hstorable⟩
        obtain rfl := Option.some.inj hsame
        obtain ⟨stored, hstored⟩ := (storable_iff descriptor).mpr hstorable
        exact ⟨stored, .ok, ⟨stored, hstored, rfl, rfl⟩, iff_of_true rfl ⟨hzero, rfl⟩,
          fun hne => absurd rfl hne⟩

/-- A refusal with the error code 1 and no payload, which is a response without descriptors. -/
theorem not_always_acceptsOnly :
    ¬∀ (unpack : List UInt8 → Option (List Proto.PeerDescriptor)) (descriptor : PeerDescriptor)
      (directory : Directory) (commandResult : CommandResult),
      AcceptsOnly unpack descriptor directory commandResult := by
  intro h
  have peer : Peer := ⟨directoryPeerId 0, CString.ofChars [], true, true⟩
  have haccepts := h (fun _ => some []) ⟨peer, [], true, ⟨0⟩, true⟩ ⟨[], fun _ => none⟩ ⟨1, []⟩
  obtain hcode | hnone | ⟨hzero, -⟩ := (acceptsOnly_iff _ _ _ _).mp haccepts
  · exact absurd hcode (by decide)
  · cases hnone
  · exact absurd hzero (by decide)

end Cebus.PeerDirectory
