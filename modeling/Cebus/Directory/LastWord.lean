import Cebus.Directory.PeerDirectory
import Cebus.Utils.CBuffer

/-!
# The entries of the directory

What `cb_peer_directory_add_or_update_entry` (`peer_directory.c`) makes of a sequence of
descriptors, also on the arrays in which the entries keep their endpoints: a new entry copies a
whole peer to fresh memory, and an update writes over what is in the array of the old one.

* `addOrUpdateEntry_eq`: both store the same entry.
* `addOrUpdateStored_eq`: the entries in memory are those of the table.
* `holdsLastWord`: each peer has the entry of its last descriptor.
-/

namespace Cebus.PeerDirectory

open LinkedList (Fault)

/-! ## The last descriptor -/

section Last

variable {α κ : Type} [DecidableEq κ] {key : α → κ} {l : List α} {k : κ}

/-- The last element of the list with this key. -/
def lastOf (key : α → κ) (l : List α) (k : κ) : Option α := (l.filter fun a => key a = k).getLast?

theorem lastOf_concat (key : α → κ) (l : List α) (a : α) :
    lastOf key (l ++ [a]) = Function.update (lastOf key l) (key a) (some a) := by
  funext k
  unfold lastOf
  rw [List.filter_append]
  by_cases hk : key a = k
  · subst hk
    rw [Function.update_self, List.filter_cons_of_pos (by simp), List.filter_nil,
      List.getLast?_concat]
  · rw [Function.update_of_ne (Ne.symm hk), List.filter_cons_of_neg (by simpa using hk),
      List.filter_nil, List.append_nil]

theorem lastOf_eq_none_iff : lastOf key l k = none ↔ ∀ a ∈ l, key a ≠ k := by
  rw [lastOf, List.getLast?_eq_none_iff, List.filter_eq_nil_iff]
  simp only [decide_eq_true_eq, ne_eq]

theorem key_lastOf {a : α} (h : lastOf key l k = some a) : key a = k :=
  of_decide_eq_true (List.mem_filter.mp (List.mem_of_getLast? h)).2

theorem mem_of_lastOf {a : α} (h : lastOf key l k = some a) : a ∈ l :=
  (List.mem_filter.mp (List.mem_of_getLast? h)).1

end Last

/-! ## Entries in memory -/

/-- `cb_peer_directory_entry` (lines 22–30), with the array of the endpoint. -/
structure StoredEntry where
  peerId : PeerId
  endpoint : Block UInt8
  isUp : Bool
  isResponding : Bool
  isPersistent : Bool
deriving DecidableEq

/-- `strncpy` to an array, or beyond its end. -/
def setEndpoint (endpoint : Block UInt8) (value : CString) : Except Fault (Block UInt8) :=
  match CString.strncpyTo endpoint 0 value 255 with
  | none => .error .wild
  | some endpoint => .ok endpoint

/-- `cb_peer_directory_entry_new` (lines 80–88), where `fresh` is what the memory for the
    endpoint contains. -/
def storedNew (fresh : Block UInt8) (descriptor : PeerDescriptor) : Except Fault StoredEntry := do
  let peerId ← peerIdCopy descriptor.peer.peerId
  let endpoint ← setEndpoint fresh descriptor.peer.endpoint
  .ok { peerId, endpoint, isUp := descriptor.peer.isUp
        isResponding := descriptor.peer.isResponding, isPersistent := descriptor.isPersistent }

/-- `cb_peer_directory_add_or_update_entry` (lines 103–126). -/
def addOrUpdateStored (peers : PeerId → Option StoredEntry) (descriptor : PeerDescriptor)
    (fresh : Block UInt8) : Except Fault (PeerId → Option StoredEntry) :=
  match peers descriptor.peer.peerId with
  | none => do
    let key ← peerIdCopy descriptor.peer.peerId
    let entry ← storedNew fresh descriptor
    .ok (Function.update peers key (some entry))
  | some entry => do
    let endpoint ← setEndpoint entry.endpoint descriptor.peer.endpoint
    let entry : StoredEntry :=
      { entry with
        endpoint
        isResponding := descriptor.peer.isResponding
        isUp := descriptor.peer.isUp
        isPersistent := descriptor.isPersistent }
    .ok (Function.update peers descriptor.peer.peerId (some entry))

/-- A descriptor that is stored, with what the memory for a new entry contains. -/
structure Call where
  descriptor : PeerDescriptor
  fresh : Block UInt8

/-- The peer that a call is about. -/
def Call.peerId (call : Call) : PeerId := call.descriptor.peer.peerId

/-- An entry in memory. -/
def stored (entry : Entry) : StoredEntry :=
  { peerId := entry.peer.peerId
    endpoint := (entry.peer.endpoint.padded 255).map some
    isUp := entry.peer.isUp
    isResponding := entry.peer.isResponding
    isPersistent := entry.isPersistent }

/-- The entries of the table in memory. -/
def storedPeers (peers : PeerId → Option Entry) : PeerId → Option StoredEntry :=
  fun id => (peers id).map stored

/-! ## One descriptor -/

variable {descriptor : PeerDescriptor} {directory : Directory} {fresh : Block UInt8} {s : CString}

/-- The entry of a descriptor. -/
def entryOf (descriptor : PeerDescriptor) : Entry :=
  { peer := { descriptor.peer with endpoint := descriptor.peer.endpoint.strncpy 255 }
    isPersistent := descriptor.isPersistent }

/-- **Creating and updating** store the same entry, if each peer has an entry with its own id. -/
theorem addOrUpdateEntry_eq (hplain : descriptor.peer.peerId.value.Plain)
    (hid : ∀ entry, directory.peers descriptor.peer.peerId = some entry →
      entry.peer.peerId = descriptor.peer.peerId) :
    addOrUpdateEntry directory descriptor = .ok { directory with
      peers := Function.update directory.peers descriptor.peer.peerId
        (some (entryOf descriptor)) } := by
  have hcopy : peerIdCopy descriptor.peer.peerId = .ok descriptor.peer.peerId :=
    peerIdSet_value hplain
  cases hentry : directory.peers descriptor.peer.peerId with
  | none =>
    simp only [addOrUpdateEntry, hentry, hcopy, Fallible.ok_bind, entryNew, peerCopy]
    rfl
  | some entry =>
    simp only [addOrUpdateEntry, hentry, hid entry hentry]
    rfl

/-- All 255 bytes are written, whatever was in the array. -/
theorem setEndpoint_eq (h : fresh.length = 255) (value : CString) :
    setEndpoint fresh value = .ok (((value.strncpy 255).padded 255).map some) := by
  have hpadded : (value.strncpy 255).padded 255 = value.padded 255 := by
    rw [CString.padded, CString.padded, CString.strncpy, CString.take, List.take_take,
      List.length_take, Nat.min_self]
    congr 2
    omega
  rw [setEndpoint, CString.strncpyTo_eq value h, hpadded]

theorem length_stored (entry : Entry) : (stored entry).endpoint.length = 255 := by
  rw [stored, List.length_map, CString.length_padded]

theorem storedPeers_update (peers : PeerId → Option Entry) (key : PeerId) (entry : Entry) :
    Function.update (storedPeers peers) key (some (stored entry)) =
      storedPeers (Function.update peers key (some entry)) := by
  funext id
  unfold storedPeers
  by_cases hid : id = key
  · subst hid
    rw [Function.update_self, Function.update_self, Option.map_some]
  · rw [Function.update_of_ne hid, Function.update_of_ne hid]

theorem storedNew_eq (h : fresh.length = 255) (descriptor : PeerDescriptor) :
    storedNew fresh descriptor = (entryNew descriptor).map stored := by
  unfold storedNew entryNew peerCopy
  rw [setEndpoint_eq h]
  cases peerIdCopy descriptor.peer.peerId with
  | error fault => rfl
  | ok peerId => rfl

/-- **The entries in memory** are those of the table. -/
theorem addOrUpdateStored_eq (h : fresh.length = 255) (directory : Directory)
    (descriptor : PeerDescriptor) :
    addOrUpdateStored (storedPeers directory.peers) descriptor fresh =
      (addOrUpdateEntry directory descriptor).map fun directory => storedPeers directory.peers := by
  cases hentry : directory.peers descriptor.peer.peerId with
  | none =>
    have hnone : storedPeers directory.peers descriptor.peer.peerId = none := by
      rw [storedPeers, hentry, Option.map_none]
    simp only [addOrUpdateStored, hnone, addOrUpdateEntry, hentry, storedNew_eq h]
    cases peerIdCopy descriptor.peer.peerId with
    | error fault => rfl
    | ok key =>
      cases entryNew descriptor with
      | error fault => rfl
      | ok entry => exact congrArg Except.ok (storedPeers_update directory.peers key entry)
  | some entry =>
    have hsome : storedPeers directory.peers descriptor.peer.peerId = some (stored entry) := by
      rw [storedPeers, hentry, Option.map_some]
    simp only [addOrUpdateStored, hsome, addOrUpdateEntry, hentry,
      setEndpoint_eq (length_stored entry), Fallible.ok_bind]
    exact congrArg Except.ok (storedPeers_update directory.peers descriptor.peer.peerId
      ⟨⟨entry.peer.peerId, descriptor.peer.endpoint.strncpy 255, descriptor.peer.isUp,
        descriptor.peer.isResponding⟩, descriptor.isPersistent⟩)

/-! ## All descriptors -/

/-- The table that has the last descriptor of every peer. -/
def lastEntries (calls : List Call) : PeerId → Option Entry :=
  fun id => (lastOf Call.peerId calls id).map fun call => entryOf call.descriptor

theorem lastEntries_concat (calls : List Call) (call : Call) :
    lastEntries (calls ++ [call]) =
      Function.update (lastEntries calls) call.peerId (some (entryOf call.descriptor)) := by
  funext id
  unfold lastEntries
  rw [lastOf_concat]
  by_cases hid : id = call.peerId
  · subst hid
    rw [Function.update_self, Function.update_self, Option.map_some]
  · rw [Function.update_of_ne hid, Function.update_of_ne hid]

theorem peerId_lastEntries {calls : List Call} {id : PeerId} {entry : Entry}
    (h : lastEntries calls id = some entry) : entry.peer.peerId = id := by
  obtain ⟨call, hcall, rfl⟩ := Option.map_eq_some_iff.mp h
  have hkey : call.peerId = id := key_lastOf hcall
  exact hkey

/-- The calls leave the last descriptors in the table, and their entries in memory. -/
theorem foldlM_addOrUpdateStored {calls : List Call}
    (hplain : ∀ call ∈ calls, call.peerId.value.Plain)
    (hfresh : ∀ call ∈ calls, call.fresh.length = 255) :
    calls.foldlM (fun peers call => addOrUpdateStored peers call.descriptor call.fresh)
        (fun _ => none) = .ok (storedPeers (lastEntries calls)) := by
  induction calls using List.reverseRecOn with
  | nil => rfl
  | append_singleton calls call ih =>
    rw [List.forall_mem_append, List.forall_mem_singleton] at hplain hfresh
    have hentry := @addOrUpdateEntry_eq call.descriptor ⟨[], lastEntries calls⟩ hplain.2
      fun entry hentry => peerId_lastEntries hentry
    have hstored := addOrUpdateStored_eq hfresh.2 ⟨[], lastEntries calls⟩ call.descriptor
    rw [hentry] at hstored
    rw [List.foldlM_append, ih hplain.1 hfresh.1, Fallible.ok_bind, List.foldlM_cons,
      lastEntries_concat]
    exact Fallible.bind_eq_ok.mpr ⟨_, hstored, rfl⟩

/-- **The directory holds the last word on every peer**: each peer that has been stored has one
    entry, which is the one that its last descriptor would get in fresh memory. -/
theorem holdsLastWord (calls : List Call)
    (hplain : ∀ call ∈ calls, call.peerId.value.Plain)
    (hendpoint : ∀ call ∈ calls, call.descriptor.peer.endpoint.bytes.length ≤ 254)
    (hfresh : ∀ call ∈ calls, call.fresh.length = 255) :
    ∃ peers, calls.foldlM (fun peers call => addOrUpdateStored peers call.descriptor call.fresh)
        (fun _ => none) = .ok peers ∧
      ∀ id, (peers id = none ↔ ∀ call ∈ calls, call.peerId ≠ id) ∧
        ∀ call, lastOf Call.peerId calls id = some call → ∃ entry, peers id = some entry ∧
          entry.peerId = id ∧
          CString.ofCells entry.endpoint = some call.descriptor.peer.endpoint ∧
          ∀ fresh : Block UInt8, fresh.length = 255 →
            storedNew fresh call.descriptor = .ok entry := by
  refine ⟨_, foldlM_addOrUpdateStored hplain hfresh, fun id => ⟨?_, fun call hcall => ?_⟩⟩
  · rw [← lastOf_eq_none_iff, storedPeers, Option.map_eq_none_iff, lastEntries,
      Option.map_eq_none_iff]
  · have hmem := mem_of_lastOf hcall
    have hkey : call.peerId = id := key_lastOf hcall
    have hlen := hendpoint call hmem
    refine ⟨stored (entryOf call.descriptor), ?_, hkey, ?_, fun fresh hlength => ?_⟩
    · rw [storedPeers, lastEntries, hcall, Option.map_some, Option.map_some]
    · have hsame : call.descriptor.peer.endpoint.strncpy 255 = call.descriptor.peer.endpoint :=
        CString.take_of_length_le (by omega)
      have hread : CString.ofCells ((call.descriptor.peer.endpoint.padded 255).map some) = _ :=
        CString.ofCells_padded (by omega)
      rw [stored, entryOf, hsame]
      exact hread
    · have hcopy : peerIdCopy call.descriptor.peer.peerId = .ok call.descriptor.peer.peerId :=
        peerIdSet_value (hplain call hmem)
      rw [storedNew_eq hlength, entryNew, peerCopy, hcopy]
      rfl

/-- A descriptor of a peer that is up, with this endpoint. -/
def upAt (endpoint : CString) : PeerDescriptor where
  peer := ⟨⟨CString.ofChars "Abc.Peer.2".toList, by decide⟩, endpoint, true, true⟩
  subscriptions := []
  isPersistent := false
  timestampUtc := ⟨0⟩
  hasDebuggerAttached := false

/-- A shorter endpoint takes the place of a longer one. -/
theorem holdsLastWord_shorter :
    ∃ peers, [Call.mk (upAt (CString.ofChars "tcp://host:1234".toList)) (Block.alloc 255),
        Call.mk (upAt (CString.ofChars "tcp://a:1".toList)) (Block.alloc 255)].foldlM
          (fun peers call => addOrUpdateStored peers call.descriptor call.fresh)
          (fun _ => none) = .ok peers ∧
      ∃ entry, peers ⟨CString.ofChars "Abc.Peer.2".toList, by decide⟩ = some entry ∧
        CString.ofCells entry.endpoint = some (CString.ofChars "tcp://a:1".toList) := by
  obtain ⟨peers, hrun, hpeers⟩ := holdsLastWord
    [Call.mk (upAt (CString.ofChars "tcp://host:1234".toList)) (Block.alloc 255),
      Call.mk (upAt (CString.ofChars "tcp://a:1".toList)) (Block.alloc 255)]
    (by decide) (by decide) (by simp)
  obtain ⟨entry, hentry, -, hread, -⟩ :=
    (hpeers ⟨CString.ofChars "Abc.Peer.2".toList, by decide⟩).2 _ rfl
  exact ⟨peers, hrun, entry, hentry, hread⟩

end Cebus.PeerDirectory
