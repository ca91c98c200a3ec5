import Cebus.Utils.CString
import Mathlib.Algebra.Group.Nat.Defs
import Mathlib.Data.List.Basic

/-!
# The dispatch of a message (`message_dispatcher.c`, `message_dispatch.c`)

Model of one call of `cb_message_dispatcher_dispatch` and of the threads of the
queues (`dispatch_queue.c`) that run the handlers it enqueues. The caller goes
through the invokers one by one, while the thread of a queue takes the entries
of its queue in their order and works on one entry at a time. Of an invoker only
the name of its queue matters; `handler` stands for its function and user data.
-/

namespace Cebus.Dispatch

variable {τ φ : Type}

/-- `cb_message_handler_invoker` (`message_handler_invoker.h`, lines 10–17). -/
structure MessageHandlerInvoker (φ : Type) where
  dispatchQueue : CString
  handler : φ
deriving DecidableEq

/-- `cb_message_handler_invoker_entry` (lines 22–25). The size of the array is a
    `size_t`. -/
structure MessageHandlerInvokerEntry (φ : Type) where
  invokers : List (MessageHandlerInvoker φ)
  size_lt : invokers.length < 2 ^ 64

/-- `cb_message_dispatcher_impl` (lines 27–34): the names of the queues, and the
    invokers by message type. -/
structure MessageDispatcher (τ φ : Type) where
  dispatchQueues : List CString
  messageInvokers : τ → Option (MessageHandlerInvokerEntry φ)

/-- `CB_DISPATCH_QUEUE_DEFAULT` (`message_handler_invoker.h`, line 6). -/
def dispatchQueueDefault : CString := CString.ofChars "__CB_DISPATCH_QUEUE_DEFAULT".toList

/-- `cb_message_handler_invoker_init` (`message_handler_invoker.c`, lines 7–15). -/
def MessageHandlerInvoker.init (dispatchQueue : Option CString) (handler : φ) :
    MessageHandlerInvoker φ :=
  ⟨(dispatchQueue.getD dispatchQueueDefault).strncpy 255, handler⟩

/-- `cb_message_dispatcher_impl_init` (lines 69–75). No function adds a queue later. -/
def MessageDispatcher.init : MessageDispatcher τ φ := ⟨[dispatchQueueDefault], fun _ => none⟩

/-- `cb_message_dispatch_impl_get_dispatch_queue` (lines 54–67). -/
def getDispatchQueue (dispatchQueues : List CString) (name : CString) : Option CString :=
  dispatchQueues.find? (CString.strcmpEq · name)

/-- A dispatch under way. The threads that work on one of its entries are in the
    handler, have returned from it, or have counted it and know how many remain. -/
structure State (φ : Type) where
  /-- the invokers that the caller has not come to -/
  rest : List (MessageHandlerInvoker φ)
  queued : List (MessageHandlerInvoker φ)
  invoking : List (MessageHandlerInvoker φ)
  returned : List (MessageHandlerInvoker φ)
  counted : List (MessageHandlerInvoker φ × UInt64)
  remainingHandlersCount : UInt64
  /-- how often the continuation has been run -/
  continued : ℕ
deriving DecidableEq

/-- `cb_message_dispatcher_impl_dispatch_all` up to its loop (lines 139–147), on a
    dispatch whose counter is 0 (`cb_message_dispatch_init`) and that has a continuation. -/
def dispatchAll (invokers : Option (MessageHandlerInvokerEntry φ)) : State φ :=
  match invokers with
  | none => ⟨[], [], [], [], [], 0, 1⟩
  | some entry =>
    if entry.invokers.isEmpty then ⟨[], [], [], [], [], 0, 1⟩
    else ⟨entry.invokers, [], [], [], [], UInt64.ofNat entry.invokers.length, 0⟩

/-- `cb_message_dispatcher_dispatch` (lines 197–205) up to its loop. -/
def dispatch (dispatcher : MessageDispatcher τ φ) (messageTypeId : τ) : State φ :=
  dispatchAll (dispatcher.messageInvokers messageTypeId)

/-- `cb_message_dispatcher_impl_dispatch_one` (lines 124–137). -/
def dispatchOne (dispatchQueues : List CString) (s : State φ) (invoker : MessageHandlerInvoker φ) :
    State φ :=
  match getDispatchQueue dispatchQueues invoker.dispatchQueue with
  | none => s
  | some _ => { s with queued := s.queued ++ [invoker] }

/-- An entry of the queue `name`. -/
def ofQueue (name : CString) (invoker : MessageHandlerInvoker φ) : Bool :=
  invoker.dispatchQueue = name

/-- The thread of the queue `name` works on an entry of the dispatch. -/
def busy (s : State φ) (name : CString) : Bool :=
  s.invoking.any (ofQueue name) || s.returned.any (ofQueue name) ||
    s.counted.any fun c => ofQueue name c.1

/-- What the caller and the threads of the queues do. -/
inductive Event where
  /-- the caller's loop goes on by one invoker (lines 151–156) -/
  | dispatchOne
  /-- a thread comes to its next entry and calls the handler (`dispatch_queue.c`, line 63) -/
  | invoke (name : CString)
  /-- the handler returns -/
  | ret (name : CString)
  /-- the atomic decrement of `cb_message_dispatch_set_handled` (line 36) -/
  | count (name : CString)
  /-- the rest of it (lines 37–41) -/
  | finish (name : CString)
deriving DecidableEq

/-- A step of the dispatch, if it is enabled. -/
def step (dispatchQueues : List CString) (s : State φ) : Event → Option (State φ)
  | .dispatchOne =>
    match s.rest with
    | [] => none
    | invoker :: rest => some (dispatchOne dispatchQueues { s with rest } invoker)
  | .invoke name =>
    if busy s name then none
    else
      match s.queued.find? (ofQueue name) with
      | none => none
      | some invoker => some { s with
          queued := s.queued.eraseP (ofQueue name)
          invoking := invoker :: s.invoking }
  | .ret name =>
    match s.invoking.find? (ofQueue name) with
    | none => none
    | some invoker => some { s with
        invoking := s.invoking.eraseP (ofQueue name)
        returned := invoker :: s.returned }
  | .count name =>
    match s.returned.find? (ofQueue name) with
    | none => none
    | some invoker =>
      let remaining := s.remainingHandlersCount - 1
      some { s with
        returned := s.returned.eraseP (ofQueue name)
        counted := (invoker, remaining) :: s.counted
        remainingHandlersCount := remaining }
  | .finish name =>
    match s.counted.find? fun c => ofQueue name c.1 with
    | none => none
    | some (_, remaining) => some { s with
        counted := s.counted.eraseP fun c => ofQueue name c.1
        continued := if remaining = 0 then s.continued + 1 else s.continued }

end Cebus.Dispatch
