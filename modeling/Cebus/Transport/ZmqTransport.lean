import Cebus.Lib.LinkedList
import Cebus.Lib.Transition

/-!
# The outbound queue of the ØMQ transport

Model of the outbound part of `src/zmq_transport.c`: senders push actions onto a
list under a mutex, the outbound thread takes the whole list at a wake-up and
then executes the actions one by one, outside the mutex.

The state machine has one event for each section that runs as a whole: a push,
a wake-up of the loop with the taking of the list, and the execution of one
action. `cb_cond_wait` has no predicate around it, so that a wake-up may come
whenever the loop waits.
-/

namespace Cebus.ZmqTransport

open LinkedList

/-- `cb_zmq_outbound_action_send_info` (lines 13–18), without the
    transport, which is the one at which it is queued. -/
structure SendInfo (μ π : Type) where
  message : μ
  peers : List π
deriving DecidableEq

/-- The outbound thread and its queue. The cells of `memory` are the
    `cb_zmq_outbound_action`s, whose callback is always that of `send`. `sent`
    and `executed` record the actions, with their addresses, in the order in
    which they are pushed and executed, `handed` what the sockets are given. -/
structure Transport (μ π : Type) where
  memory : Mem (SendInfo μ π)
  outboundActionHead : Option ℕ
  node : Option ℕ
  sent : List (ℕ × SendInfo μ π)
  executed : List (ℕ × SendInfo μ π)
  handed : List (π × μ)
deriving DecidableEq

variable {μ π : Type}

/-- The transport after `cb_zmq_transport_start` (lines 384–386). -/
def start : Transport μ π := ⟨[], none, none, [], [], []⟩

/-- `cb_zmq_transport_outbound_push` (lines 299–312). -/
def outboundPush (t : Transport μ π) (data : SendInfo μ π) : Transport μ π :=
  { t with
    memory := t.memory.alloc ⟨data, t.outboundActionHead⟩
    outboundActionHead := some t.memory.length
    sent := t.sent ++ [(t.memory.length, data)] }

/-- `cb_zmq_transport_send` (lines 424–434). -/
def send (t : Transport μ π) (message : μ) (peers : List π) : Transport μ π :=
  outboundPush t ⟨message, peers⟩

/-- The section of `cb_zmq_transport_outbound_loop` under the mutex
    (lines 279–285), from the return of `cb_cond_wait` on. -/
def outboundTake (t : Transport μ π) : Transport μ π :=
  { t with node := t.outboundActionHead, outboundActionHead := none }

/-- What `cb_zmq_transport_outbound_action_send` (lines 130–166)
    hands to the sockets, given the peers to which there is one. -/
def outboundActionSend (data : SendInfo μ π) (connected : π → Bool) : List (π × μ) :=
  (data.peers.filter connected).map (·, data.message)

/-- One turn of the inner loop of `cb_zmq_transport_outbound_loop`
    (lines 287–293). -/
def outboundExecute (t : Transport μ π) (connected : π → Bool) : Option (Transport μ π) := do
  let a ← t.node
  let action ← t.memory.read a
  some { t with
    node := action.next
    memory := t.memory.free a
    executed := t.executed ++ [(a, action.val)]
    handed := t.handed ++ outboundActionSend action.val connected }

/-- A call of `cb_zmq_transport_send`, and the sections of the outbound thread. -/
inductive Event (μ π : Type) where
  | send (message : μ) (peers : List π)
  | wake
  | execute (connected : π → Bool)

/-- The loop waits exactly while it has no batch left to execute. -/
def step (t : Transport μ π) : Event μ π → Option (Transport μ π)
  | .send message peers => some (send t message peers)
  | .wake => if t.node = none then some (outboundTake t) else none
  | .execute connected => outboundExecute t connected

end Cebus.ZmqTransport
