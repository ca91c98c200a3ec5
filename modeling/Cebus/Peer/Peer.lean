import Cebus.Utils.CString

/-!
# Peers and lists of peers (`peer_id.c`, `peer.c`)

An entry of a list holds its own clone of a peer. The entries of a list are the
cells of a memory of its own; the pointers `head` and `tail` are addresses in it.
-/

namespace Cebus

open LinkedList

/-- `cb_peer_id` (`peer_id.h`, lines 8–11): a terminated string in an array of 255. -/
structure PeerId where
  value : CString
  length_lt : value.bytes.length < 255
deriving DecidableEq

/-- `cb_peer` (`peer.h`, lines 9–16). -/
structure Peer where
  peerId : PeerId
  endpoint : CString
  isUp : Bool
  isResponding : Bool
deriving DecidableEq

/-- `cb_peer_list` (`peer.h`, lines 36–42), with the memory of its entries. -/
structure PeerList where
  entries : Mem Peer
  head : Option ℕ
  tail : Option ℕ
  count : ℕ

/-! ## Peers -/

/-- `cb_peer_id_set` without arguments for the format (`peer_id.c`, lines 11–17). -/
def peerIdSet (fmt : CString) : Except Fault PeerId := do
  let value ← CString.vsnprintf 255 fmt
  if h : value.bytes.length < 255 then .ok ⟨value, h⟩ else .error .wild

/-- A plain value is not changed by its use as a format. -/
theorem peerIdSet_value {id : PeerId} (h : id.value.Plain) : peerIdSet id.value = .ok id := by
  have hlt := id.length_lt
  rw [peerIdSet, CString.vsnprintf_of_plain h, CString.take_of_length_le (by omega),
    Fallible.ok_bind, dif_pos hlt]

/-- `cb_peer_id_copy` (`peer_id.c`, lines 41–44): the value is the format. -/
def peerIdCopy (src : PeerId) : Except Fault PeerId := peerIdSet src.value

/-- `cb_peer_id_eq` (`peer_id.c`, lines 53–56). -/
def peerIdEq (lhs rhs : PeerId) : Bool := CString.strncmpEq lhs.value rhs.value 255

/-- `cb_peer_copy` (lines 49–55), with `cb_peer_set_endpoint` (lines 18–24). -/
def peerCopy (src : Peer) : Except Fault Peer := do
  let peerId ← peerIdCopy src.peerId
  .ok { peerId, endpoint := src.endpoint.strncpy 255
        isUp := src.isUp, isResponding := src.isResponding }

/-- `cb_peer_clone` (lines 57–62). -/
def peerClone (src : Peer) : Except Fault Peer := peerCopy src

/-! ## Lists -/

namespace PeerList

/-- `cb_peer_list_init` (lines 64–67): the counter is left as it was. -/
def init (count : ℕ) : PeerList := { entries := [], head := none, tail := none, count }

/-- `cb_peer_list_add` (lines 76–94). -/
def add (list : PeerList) (peer : Peer) : Except Fault PeerList := do
  let clone ← peerClone peer
  let entry := list.entries.length
  match list.tail with
  | none =>
    .ok { entries := list.entries.alloc ⟨clone, none⟩
          head := some entry, tail := some entry, count := list.count + 1 }
  | some a => do
    let last ← list.entries.get (some a)
    .ok { list with
      entries := (list.entries.alloc ⟨clone, none⟩).write a { last with next := some entry }
      tail := some entry, count := list.count + 1 }

/-- The removal of the entry that the loop of `cb_peer_list_remove` has found
    (lines 109–121). -/
def unlink (list : PeerList) (prev : Option ℕ) (a : ℕ) : Except Fault PeerList := do
  let entry ← list.entries.get (some a)
  if prev = list.head then
    let first ← list.entries.get list.head
    .ok { list with
      entries := list.entries.free a, head := first.next, count := list.count - 1 }
  else match prev with
  | none => .error .null
  | some b => do
    let before ← list.entries.get (some b)
    .ok { list with
      entries := (list.entries.write b { before with next := entry.next }).free a
      count := list.count - 1 }

/-- `cb_peer_list_remove` (lines 96–129), with the value it returns. -/
def remove (list : PeerList) (peer : Peer) : Except Fault (PeerList × Bool) := do
  let found ← search list.entries
    (fun prev a entry => .ok (if peerIdEq entry.peerId peer.peerId then some (prev, a) else none))
    list.entries.length list.head list.head
  match found with
  | none => .ok (list, false)
  | some (prev, a) => do
    let list ← unlink list prev a
    .ok (list, true)

/-- `cb_peer_list_insert` (`peer_subscription_tree.c`, lines 21–44). -/
def insert (list : PeerList) (peer : Peer) : Except Fault PeerList := do
  let found ← search list.entries
    (fun _ a entry => .ok (if peerIdEq entry.peerId peer.peerId then some a else none))
    list.entries.length list.head list.head
  match found with
  | none => add list peer
  | some a => do
    let copy ← peerCopy peer
    let entry ← list.entries.get (some a)
    .ok { list with entries := list.entries.write a { entry with val := copy } }

/-- `cb_peer_subscription_tree_collector_offer` (`peer_subscription_tree.c`,
    lines 46–55), on the list of the collector. -/
def offer (peers list : PeerList) : Except Fault PeerList :=
  fold list.entries (fun peers _ peer => insert peers peer) list.entries.length list.head peers

end PeerList

end Cebus
