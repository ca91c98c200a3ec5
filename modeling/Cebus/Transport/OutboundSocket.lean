import Cebus.Peer.Peer

/-!
# Outbound sockets (`zmq_outbound_socket.c`)

What ØMQ answers is passed to the functions. `time_instant_now` and
`time_instant_elapsed` are not implemented and abort the process (`time_unix.c`), as a
failed assertion does.
-/

namespace Cebus

open LinkedList (Fault)

/-- `cb_zmq_outbound_socket_error` (`zmq_outbound_socket.h`, lines 11–37). -/
inductive OutboundSocketError where
  | ok
  | errorSockCreate
  | errorSockOptions
  | errorConnect
  | errorClose
  | errorNotConnected
  | errorSendCooldown
  | errorSend
deriving DecidableEq, Repr

/-- `cb_zmq_outbound_socket_state` (lines 40–52). -/
inductive OutboundSocketState where
  | established
  | closedWait
  | closed
deriving DecidableEq, Repr

/-- What ends the process. -/
inductive Abort where
  | assertion
  | unimplemented
deriving DecidableEq, Repr

/-- `cb_zmq_outbound_socket` (lines 54–69), where `sock` tells whether the pointer to the
    ØMQ socket is set. Of the options only the number of retries is used once the socket is
    created. -/
structure OutboundSocket where
  sock : Bool
  state : OutboundSocketState
  peerId : PeerId
  endpoint : CString
  zmqError : Int32
  sendRetries : Int32
  failedSendCount : UInt64
deriving DecidableEq

/-- What ØMQ answers while a socket is connected, if it is asked: whether there is a new
    socket, and the `errno` of setting its options and of connecting it if that fails. -/
structure ConnectAnswers where
  created : Bool
  options : Option Int32
  connect : Option Int32
deriving DecidableEq

namespace OutboundSocket

/-- `cb_zmq_outbound_socket_new` (lines 60–78); the counter is what fresh memory
    contains. -/
def new (peerId : PeerId) (endpoint : CString) (sendRetries : Int32) (fresh : UInt64) :
    Except Fault OutboundSocket := do
  let peerId ← peerIdSet peerId.value
  .ok { sock := false, state := .closed, peerId, endpoint := endpoint.strncpy 255
        zmqError := 0, sendRetries, failedSendCount := fresh }

/-- `cb_zmq_outbound_socket_connect` (lines 80–108). -/
def connect (socket : OutboundSocket) (answers : ConnectAnswers) :
    OutboundSocket × OutboundSocketError :=
  if socket.sock = false ∧ answers.created = false then (socket, .errorSockCreate)
  else
    match if socket.sock then none else answers.options with
    | some errno => ({ socket with zmqError := errno }, .errorSockOptions)
    | none =>
      match answers.connect with
      | some errno => ({ socket with sock := true, zmqError := errno }, .errorConnect)
      | none => ({ socket with sock := true, state := .established, failedSendCount := 0 }, .ok)

/-- `cb_zmq_outbound_socket_disconnect` (lines 110–135), where `zmq_close` returns `rc`; what
    setting the linger value returns is not looked at. -/
def disconnect (socket : OutboundSocket) (rc : Int32) : OutboundSocket × OutboundSocketError :=
  if socket.sock = false then (socket, .errorNotConnected)
  else if socket.state ≠ .established then (socket, .errorNotConnected)
  else if rc < 0 then ({ socket with zmqError := rc }, .errorClose)
  else ({ socket with sock := false, state := .closed }, .ok)

/-- `cb_zmq_outbound_socket_send_failure` (lines 27–39). The count is compared as a
    `size_t`. -/
def sendFailure (socket : OutboundSocket) (rc : Int32) : Except Abort OutboundSocket :=
  if socket.state ≠ .established then .error .assertion
  else if socket.sendRetries.toInt64.toUInt64 ≤ socket.failedSendCount then .error .unimplemented
  else .ok { socket with zmqError := rc, failedSendCount := socket.failedSendCount + 1 }

/-- `cb_zmq_outbound_socket_can_send` (lines 41–58). -/
def canSend (socket : OutboundSocket) : Except Abort Bool :=
  match socket.state with
  | .closed => .ok false
  | .established => .ok true
  | .closedWait => .error .unimplemented

/-- `cb_zmq_outbound_socket_send` (lines 137–159) for a socket that is not null, where
    `zframe_send` returns `rc`. The flag tells whether it was called. -/
def send (socket : OutboundSocket) (rc : Int32) :
    Except Abort (OutboundSocket × OutboundSocketError × Bool) :=
  if socket.sock = false then .ok (socket, .errorNotConnected, false)
  else do
    let canSend ← canSend socket
    if canSend = false then .ok (socket, .errorSendCooldown, false)
    else if rc = 0 then .ok (socket, .ok, true)
    else
      let socket ← sendFailure socket rc
      .ok (socket, .errorSend, true)

end OutboundSocket

end Cebus
