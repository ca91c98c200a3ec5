import Cebus.Lib.Transition
import Cebus.Transport.OutboundSocket
import Mathlib.Logic.Function.Basic

/-!
# Sockets and endpoints

Model of `cb_zmq_transport_get_outbound_socket` and
`cb_zmq_transport_outbound_action_send` (`src/zmq_transport.c`): the outbound thread
sends a message to each peer of a list and keeps the sockets that it connects, by the ids
of the peers. `outbound_sockets` is a finite map.

* `run_actions`: the runs of the loop are runs of its turns.
* `toEndpoints_iff`: every message goes to the endpoint of its peer exactly in the runs
  in which no socket is found that was connected to another one.
-/

namespace Cebus.OutboundSend

open LinkedList (Fault)
open Transition

/-! ## Model -/

/-- A call of `zframe_send`: the bytes, the peer that they are for, and the endpoint to
    which the socket was connected. -/
structure Handed where
  message : List UInt8
  peer : Peer
  endpoint : CString
deriving DecidableEq

/-- The fields of `cb_zmq_transport` that the outbound thread uses, and what it has handed
    to sockets. -/
structure Transport where
  outboundSockets : PeerId → Option OutboundSocket
  sendRetries : Int32
  handed : List Handed

/-- What the turn of the loop for a peer gets from outside: the answers of ØMQ while it
    connects a socket and the one to `zframe_send`, and the memory of a new socket. -/
structure Answers where
  connect : ConnectAnswers
  send : Int32
  fresh : UInt64
deriving DecidableEq

/-- After `cb_zmq_transport_new` (`zmq_transport.c`, lines 318–340). -/
def new (sendRetries : Int32) : Transport := ⟨fun _ => none, sendRetries, []⟩

/-- `cb_zmq_transport_get_outbound_socket` (lines 103–128): the socket with the key that it
    has in the table. -/
def getOutboundSocket (t : Transport) (peer : Peer) (answers : Answers) :
    Except Fault (Transport × Option (PeerId × OutboundSocket)) :=
  match t.outboundSockets peer.peerId with
  | some socket => .ok (t, some (peer.peerId, socket))
  | none => do
    let socket ← OutboundSocket.new peer.peerId peer.endpoint t.sendRetries answers.fresh
    match socket.connect answers.connect with
    | (socket, .ok) => do
      let key ← peerIdCopy peer.peerId
      .ok ({ t with outboundSockets := Function.update t.outboundSockets key (some socket) },
        some (key, socket))
    | _ => .ok (t, none)

/-- A message for a peer. -/
structure Turn where
  message : List UInt8
  peer : Peer
  answers : Answers
deriving DecidableEq

/-- The sending to the socket `socket` of the table (lines 150–157), unless the process comes
    to its end. -/
def handOver (t : Transport) (key : PeerId) (socket : OutboundSocket) (e : Turn) :
    Option Transport :=
  match socket.send e.answers.send with
  | .error _ => none
  | .ok (socket, _, called) => some { t with
    outboundSockets := Function.update t.outboundSockets key (some socket)
    handed := if called then t.handed ++ [⟨e.message, e.peer, socket.endpoint⟩] else t.handed }

/-- A turn of the loop of `cb_zmq_transport_outbound_action_send` (lines 142–160), unless
    the process comes to its end. -/
def turn (t : Transport) (e : Turn) : Option Transport :=
  match getOutboundSocket t e.peer e.answers with
  | .error _ => none
  | .ok (t, none) => some t
  | .ok (t, some (key, socket)) => handOver t key socket e

/-- `cb_zmq_outbound_action_send_info` (lines 13–18): the packed message, and the peers with
    what the turn of each is going to get from outside. -/
structure SendInfo where
  message : List UInt8
  peers : List (Peer × Answers)
deriving DecidableEq

/-- The turns of the loop. -/
def SendInfo.turns (info : SendInfo) : List Turn :=
  info.peers.map fun target => ⟨info.message, target.1, target.2⟩

/-- `cb_zmq_transport_outbound_action_send` (lines 130–166). -/
def outboundActionSend (t : Transport) (info : SendInfo) : Option Transport :=
  info.peers.foldlM (fun t target => turn t ⟨info.message, target.1, target.2⟩) t

/-- **The runs of the loop are runs of its turns.** -/
theorem run_actions (t : Transport) (actions : List SendInfo) :
    run outboundActionSend t actions = run turn t (actions.flatMap SendInfo.turns) := by
  induction actions generalizing t with
  | nil => rfl
  | cons info actions ih =>
    have hinfo : outboundActionSend t info = run turn t info.turns := by
      rw [outboundActionSend, run, SendInfo.turns, List.foldlM_map]
    rw [run_cons, List.flatMap_cons, run_append, hinfo]
    exact congrArg _ (funext ih)

/-! ## The endpoints -/

/-- Each message has gone to a socket that was connected to the endpoint in the array of
    the peer that it was for. -/
def ToEndpoints (t : Transport) : Prop :=
  ∀ h ∈ t.handed, h.endpoint = h.peer.endpoint.strncpy 255

/-- A socket that the table has for the id of the peer was connected to the endpoint that
    the peer has now. -/
def FindsEndpoint (t : Transport) (e : Turn) : Prop :=
  ∀ socket, t.outboundSockets e.peer.peerId = some socket →
    socket.endpoint = e.peer.endpoint.strncpy 255

/-- The socket can take messages. -/
def Connected (socket : OutboundSocket) : Prop :=
  socket.sock = true ∧ socket.state = .established

/-- All sockets of the table are connected. -/
def AllConnected (sockets : PeerId → Option OutboundSocket) : Prop :=
  ∀ id socket, sockets id = some socket → Connected socket

theorem AllConnected.update {sockets : PeerId → Option OutboundSocket} (h : AllConnected sockets)
    (key : PeerId) {socket : OutboundSocket} (hsocket : Connected socket) :
    AllConnected (Function.update sockets key (some socket)) := by
  intro id s hs
  by_cases hid : id = key
  · subst hid
    rw [Function.update_self, Option.some_inj] at hs
    exact hs ▸ hsocket
  · rw [Function.update_of_ne hid] at hs
    exact h id s hs

/-- The sockets of the table are connected, and all messages have gone where they
    should. -/
structure Holds (t : Transport) : Prop where
  connected : AllConnected t.outboundSockets
  toEndpoints : ToEndpoints t

theorem holds_new (sendRetries : Int32) : Holds (new sendRetries) := by
  constructor
  · intro id socket h
    cases h
  · intro h hmem
    cases hmem

/-! ## The sockets -/

theorem connect_spec {socket socket' : OutboundSocket} {answers : ConnectAnswers}
    (h : socket.connect answers = (socket', .ok)) :
    Connected socket' ∧ socket'.endpoint = socket.endpoint := by
  unfold OutboundSocket.connect at h
  split at h
  · cases h
  · split at h
    · cases h
    · split at h
      · cases h
      · obtain ⟨rfl, -⟩ := Prod.mk.inj h
        exact ⟨⟨rfl, rfl⟩, rfl⟩

/-- A connected socket is handed the message, and stays connected unless the process
    aborts. -/
theorem send_spec {socket socket' : OutboundSocket} {rc : Int32} {error : OutboundSocketError}
    {called : Bool} (hconn : Connected socket)
    (h : socket.send rc = .ok (socket', error, called)) :
    called = true ∧ Connected socket' ∧ socket'.endpoint = socket.endpoint := by
  obtain ⟨hsock, hstate⟩ := hconn
  simp only [OutboundSocket.send, hsock, OutboundSocket.canSend, hstate, Fallible.ok_bind,
    Bool.true_eq_false, if_false] at h
  split at h
  · obtain ⟨rfl, -, rfl⟩ : _ ∧ _ ∧ _ := by simpa using h
    exact ⟨rfl, ⟨hsock, hstate⟩, rfl⟩
  · obtain ⟨failed, hfailed, h⟩ := Fallible.bind_eq_ok.mp h
    obtain ⟨rfl, -, rfl⟩ : _ ∧ _ ∧ _ := by simpa using h
    unfold OutboundSocket.sendFailure at hfailed
    split at hfailed
    · cases hfailed
    · split at hfailed
      · cases hfailed
      · obtain rfl := Except.ok.inj hfailed
        exact ⟨rfl, ⟨hsock, hstate⟩, rfl⟩

variable {t u : Transport} {e : Turn}

/-- A socket that is not found in the table is connected to the endpoint of the peer, if there
    is one at all. -/
theorem getOutboundSocket_spec {peer : Peer} {answers : Answers}
    {found : Option (PeerId × OutboundSocket)} (hconn : AllConnected t.outboundSockets)
    (hnone : t.outboundSockets peer.peerId = none)
    (h : getOutboundSocket t peer answers = .ok (u, found)) :
    u.handed = t.handed ∧ AllConnected u.outboundSockets ∧
      ∀ key socket, found = some (key, socket) →
        Connected socket ∧ socket.endpoint = peer.endpoint.strncpy 255 := by
  simp only [getOutboundSocket, hnone] at h
  obtain ⟨fresh, hnew, h⟩ := Fallible.bind_eq_ok.mp h
  have hendpoint : fresh.endpoint = peer.endpoint.strncpy 255 := by
    obtain ⟨peerId, -, hnew⟩ := Fallible.bind_eq_ok.mp hnew
    obtain rfl := Except.ok.inj hnew
    rfl
  split at h
  · next socket hconnect =>
    obtain ⟨key, -, h⟩ := Fallible.bind_eq_ok.mp h
    obtain ⟨rfl, rfl⟩ := Prod.mk.inj (Except.ok.inj h)
    obtain ⟨hsocket, hsame⟩ := connect_spec hconnect
    refine ⟨rfl, hconn.update key hsocket, fun key' socket' heq => ?_⟩
    obtain ⟨-, rfl⟩ := Prod.mk.inj (Option.some.inj heq)
    exact ⟨hsocket, hsame.trans hendpoint⟩
  · obtain ⟨rfl, rfl⟩ := Prod.mk.inj (Except.ok.inj h)
    refine ⟨rfl, hconn, fun key socket heq => ?_⟩
    cases heq

theorem handOver_spec {key : PeerId} {socket : OutboundSocket}
    (hconn : AllConnected t.outboundSockets) (hsocket : Connected socket)
    (h : handOver t key socket e = some u) :
    AllConnected u.outboundSockets ∧
      u.handed = t.handed ++ [⟨e.message, e.peer, socket.endpoint⟩] := by
  unfold handOver at h
  split at h
  · cases h
  · next socket' error called hsend =>
    obtain ⟨rfl, hsocket', hsame⟩ := send_spec hsocket hsend
    obtain rfl := Option.some.inj h
    exact ⟨hconn.update key hsocket', by rw [if_pos rfl, hsame]⟩

/-- A message goes to the socket that the table has for the id. -/
theorem turn_of_some (hconn : AllConnected t.outboundSockets) {socket : OutboundSocket}
    (hfound : t.outboundSockets e.peer.peerId = some socket) (h : turn t e = some u) :
    AllConnected u.outboundSockets ∧
      u.handed = t.handed ++ [⟨e.message, e.peer, socket.endpoint⟩] := by
  simp only [turn, getOutboundSocket, hfound] at h
  exact handOver_spec hconn (hconn _ _ hfound) h

/-- Without one it goes to the endpoint of the peer, or nowhere. -/
theorem turn_of_none (hconn : AllConnected t.outboundSockets)
    (hnone : t.outboundSockets e.peer.peerId = none) (h : turn t e = some u) :
    AllConnected u.outboundSockets ∧ (u.handed = t.handed ∨
      u.handed = t.handed ++ [⟨e.message, e.peer, e.peer.endpoint.strncpy 255⟩]) := by
  unfold turn at h
  split at h
  · cases h
  · next hget =>
    obtain rfl := Option.some.inj h
    obtain ⟨hhanded, hall, -⟩ := getOutboundSocket_spec hconn hnone hget
    exact ⟨hall, Or.inl hhanded⟩
  · next t' key socket hget =>
    obtain ⟨hhanded, hall, hsocket⟩ := getOutboundSocket_spec hconn hnone hget
    obtain ⟨hsocket, hendpoint⟩ := hsocket key socket rfl
    obtain ⟨hall', hhanded'⟩ := handOver_spec hall hsocket h
    exact ⟨hall', Or.inr (by rw [hhanded', hhanded, hendpoint])⟩

/-! ## The runs -/

theorem Holds.turn (h : Holds t) (hC : FindsEndpoint t e) (hs : turn t e = some u) :
    Holds u := by
  rcases hfound : t.outboundSockets e.peer.peerId with _ | socket
  · obtain ⟨hall, hhanded | hhanded⟩ := turn_of_none h.connected hfound hs
    · exact ⟨hall, by rw [ToEndpoints, hhanded]; exact h.toEndpoints⟩
    · refine ⟨hall, fun handed hmem => ?_⟩
      rw [hhanded, List.mem_append, List.mem_singleton] at hmem
      obtain hmem | rfl := hmem
      · exact h.toEndpoints handed hmem
      · rfl
  · obtain ⟨hall, hhanded⟩ := turn_of_some h.connected hfound hs
    refine ⟨hall, fun handed hmem => ?_⟩
    rw [hhanded, List.mem_append, List.mem_singleton] at hmem
    obtain hmem | rfl := hmem
    · exact h.toEndpoints handed hmem
    · exact hC socket hfound

/-- What is handed to a socket of another endpoint has gone astray. -/
theorem Holds.findsEndpoint (h : Holds t) (hs : OutboundSend.turn t e = some u)
    (hu : ToEndpoints u) : FindsEndpoint t e := by
  intro socket hfound
  obtain ⟨-, hhanded⟩ := turn_of_some h.connected hfound hs
  exact hu ⟨e.message, e.peer, socket.endpoint⟩ (by rw [hhanded]; simp)

/-- **Messages go to the endpoints of their peers exactly in the runs in which no turn
    finds a socket that was connected to another endpoint.** -/
theorem toEndpoints_iff (sendRetries : Int32) (actions : List SendInfo) :
    Always turn ToEndpoints (new sendRetries) (actions.flatMap SendInfo.turns) ↔
      Meets turn FindsEndpoint (new sendRetries) (actions.flatMap SendInfo.turns) :=
  always_iff_meets (I := Holds) (holds_new sendRetries) (fun _ h => h.toEndpoints)
    (fun _ _ _ => Holds.turn) (fun _ _ _ => Holds.findsEndpoint)

/-- A peer that comes back at another endpoint does not get its messages. -/
theorem not_always_toEndpoints : ¬ ∀ actions : List SendInfo,
    Always turn ToEndpoints (new 2) (actions.flatMap SendInfo.turns) := by
  intro h
  let id : PeerId := ⟨CString.ofChars "Abc.Peer.1".toList, by decide⟩
  let before : Peer := ⟨id, CString.ofChars "tcp://a:1".toList, true, true⟩
  let answers : Answers := ⟨⟨true, none, none⟩, 0, 0⟩
  have hto := h [⟨[], [(before, answers)]⟩,
      ⟨[], [({ before with endpoint := CString.ofChars "tcp://b:2".toList }, answers)]⟩]
    _ _ List.prefix_rfl rfl
  exact absurd (hto _ (List.mem_cons_of_mem _ List.mem_cons_self)) (by decide)

end Cebus.OutboundSend
