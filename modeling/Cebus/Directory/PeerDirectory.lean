import Cebus.Bus.BusImpl
import Cebus.Lib.Decimal
import Cebus.Peer.PeerDescriptor

/-!
# The peer directory

Model of the part of `src/peer_directory.c` that registers the peer with a directory
and leaves it again: the table of peers, the iterator over the endpoints of the
configuration, and the two loops over it.

`cb_bus_send_to` is a sequence: its `k`-th answer is what comes back from the `k`-th
contact. A loop has fuel, since it need not end.
-/

namespace Cebus.PeerDirectory

open Bus (CommandResult)
open LinkedList (Fault)

/-- `cb_peer_directory_error` (`peer_directory.h`, lines 20–33). -/
inductive Error where
  | ok
  | deserializationError
  | peerAlreadyExists
  | registrationFailed
deriving DecidableEq, Repr

/-- `CB_PEER_DIRECTORY_ERROR_PEER_ALREADY_EXISTS` (`peer_directory.h`, line 18). -/
def errorPeerAlreadyExists : Int32 := 1001

/-- `cb_peer_directory_entry` (lines 22–30), without the index of subscriptions, to
    which all entries point and which nobody reads. -/
structure Entry where
  peer : Peer
  isPersistent : Bool
deriving DecidableEq

/-- The fields of `cb_peer_directory` that registering uses: the endpoints of the
    configuration up to the null pointer, and the table of peers, as a finite map. -/
structure Directory where
  directoryEndpoints : List CString
  peers : PeerId → Option Entry

/-! ## The table of peers -/

/-- `cb_peer_directory_entry_new` (lines 80–88). -/
def entryNew (descriptor : PeerDescriptor) : Except Fault Entry := do
  let peer ← peerCopy descriptor.peer
  .ok { peer, isPersistent := descriptor.isPersistent }

/-- `cb_peer_directory_add_or_update_entry` (lines 103–126). -/
def addOrUpdateEntry (directory : Directory) (descriptor : PeerDescriptor) :
    Except Fault Directory :=
  let peer := descriptor.peer
  match directory.peers peer.peerId with
  | none => do
    let key ← peerIdCopy peer.peerId
    let entry ← entryNew descriptor
    .ok { directory with peers := Function.update directory.peers key (some entry) }
  | some entry =>
    let entry : Entry :=
      { peer := { entry.peer with
          endpoint := peer.endpoint.strncpy 255
          isResponding := peer.isResponding
          isUp := peer.isUp }
        isPersistent := descriptor.isPersistent }
    .ok { directory with peers := Function.update directory.peers peer.peerId (some entry) }

/-- `cb_peer_directory_handle_register_peer_response` (lines 128–155), where
    `unpack` is `register_peer_response__unpack` and `descriptor` what is in the
    memory that each descriptor is read into. -/
def handleRegisterPeerResponse (unpack : List UInt8 → Option (List Proto.PeerDescriptor))
    (descriptor : PeerDescriptor) (directory : Directory) (commandResult : CommandResult) :
    Except Fault (Directory × Error) :=
  if commandResult.errorCode = errorPeerAlreadyExists then .ok (directory, .peerAlreadyExists)
  else
    match unpack commandResult.data with
    | none => .ok (directory, .deserializationError)
    | some peerDescriptors => do
      let directory ← peerDescriptors.foldlM
        (fun directory proto => do
          addOrUpdateEntry directory (← peerDescriptorFromProto descriptor proto))
        directory
      .ok (directory, .ok)

/-! ## The endpoints -/

/-- `cb_peer_directory_iterator` (lines 32–37). -/
structure Iterator where
  index : ℕ
  directoryEndpoints : List CString

/-- `cb_peer_directory_iter` (lines 39–43). -/
def iter (directory : Directory) : Iterator := ⟨0, directory.directoryEndpoints⟩

/-- `cb_peer_directory_iter_has_next` (lines 45–48). -/
def Iterator.hasNext (it : Iterator) : Bool := it.directoryEndpoints[it.index]?.isSome

/-- The id `Abc.Zebus.Directory.%zu` of a directory. -/
def directoryPeerId (index : ℕ) : PeerId where
  value := (CString.ofChars ("Abc.Zebus.Directory.".toList ++ Decimal.ofNat index)).take 254
  length_lt := by
    rw [CString.take, List.length_take]
    omega

/-- `cb_peer_directory_iter_get_peer` (lines 55–60), which sets two fields of
    `peer`. -/
def Iterator.getPeer (it : Iterator) (peer : Peer) : Except Fault Peer :=
  match it.directoryEndpoints[it.index]? with
  | none => .error .null
  | some endpoint =>
    .ok { peer with endpoint := endpoint.strncpy 255, peerId := directoryPeerId it.index }

end Cebus.PeerDirectory
