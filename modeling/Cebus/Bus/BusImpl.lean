import Mathlib.Data.Nat.Notation
import Mathlib.Logic.Function.Basic

/-!
# Commands and their completion

Model of the part of `src/bus.c` that keeps track of the commands sent and sets
their futures when a `MessageExecutionCompleted` comes back.

`message_id_tasks` is a finite map, and the records it points to lie in memory
that can be freed. What the environment decides comes with the events: the
message id that is generated, whether the transport takes the message, what
fresh memory contains, and the message that unpacking yields, if it does.
-/

namespace Cebus.Bus

/-- What a C program must not do. -/
inductive Fault where
  | nullPointer
  | useAfterFree
deriving DecidableEq, Repr

/-- `cb_command_result` (`bus.h`, lines 39–45), with the bytes of its buffer. -/
structure CommandResult where
  errorCode : Int32
  data : List UInt8
deriving DecidableEq

/-- The fields of `cb_future_inner` that `cb_future_set` uses without a
    continuation: the storage, once the state is ready. -/
abbrev FutureInner := Option CommandResult

/-- `cb_command_future` (lines 55–67); `future` is the number of the future
    whose inner part it points to. -/
structure CommandFuture where
  result : CommandResult
  future : ℕ
deriving DecidableEq

/-- `cb_bus_impl`: the table of tasks, the memory of the records, where a freed
    one is `none`, and that of the futures. -/
structure BusImpl (ι : Type) where
  messageIdTasks : ι → Option ℕ
  commandFutures : List (Option CommandFuture)
  futures : List FutureInner

/-- The fields of a `MessageExecutionCompleted` that the bus reads. -/
structure MessageExecutionCompleted (ι : Type) where
  sourceMessageId : ι
  errorCode : Int32
  payloadTypeId : Option String
  payload : Option (List UInt8)

/-- The records and futures are numbered in the order in which they are made. -/
theorem getElem?_concat_eq_some {α : Type} {l : List α} {a b : α} {k : ℕ} :
    (l ++ [a])[k]? = some b ↔ l[k]? = some b ∨ k = l.length ∧ a = b := by
  rcases Nat.lt_trichotomy k l.length with hk | rfl | hk
  · rw [List.getElem?_append_left hk]
    simp [Nat.ne_of_lt hk]
  · simp
  · rw [List.getElem?_eq_none (by simp; omega), List.getElem?_eq_none (by omega)]
    simp [Nat.ne_of_gt hk]

variable {ι : Type} [DecidableEq ι]

/-- `cb_bus_impl_init` (lines 175–187). -/
def init : BusImpl ι := ⟨fun _ => none, [], []⟩

/-- `cb_bus_impl_send_to_async` (lines 204–243) for the message id `id`. The
    record is allocated with the contents `fresh`, of which
    `cb_command_future_init` (lines 81–86) does not touch the result. -/
def sendToAsync (impl : BusImpl ι) (id : ι) (fresh : CommandResult) (transportOk : Bool) :
    BusImpl ι :=
  let inserted : BusImpl ι :=
    { messageIdTasks := Function.update impl.messageIdTasks id (some impl.commandFutures.length)
      commandFutures := impl.commandFutures ++ [some ⟨fresh, impl.futures.length⟩]
      futures := impl.futures ++ [none] }
  if transportOk then inserted
  else { inserted with messageIdTasks := Function.update inserted.messageIdTasks id none }

/-- `cb_future_set` (`threading.c`, lines 117–141): only the first call has an effect. -/
def futureSet (futures : List FutureInner) (future : ℕ) (data : CommandResult) :
    List FutureInner :=
  futures.modify future fun inner => some (inner.getD data)

/-- `cb_bus_impl_handle_on_message_execution_completed` (lines 94–142) on what
    unpacking yields. The log call reads `payload_type_id->full_name` whatever
    the log level is. -/
def handleOnMessageExecutionCompleted (impl : BusImpl ι)
    (message : Option (MessageExecutionCompleted ι)) : Except Fault (BusImpl ι) :=
  match message with
  | none => .ok impl
  | some message =>
    match impl.messageIdTasks message.sourceMessageId with
    | none => .ok impl
    | some a =>
      match message.payloadTypeId with
      | none => .error .nullPointer
      | some _ =>
        match impl.commandFutures[a]?.join with
        | none => .error .useAfterFree
        | some commandFuture =>
          let result : CommandResult :=
            { errorCode := message.errorCode
              data := message.payload.getD commandFuture.result.data }
          .ok { impl with
            futures := futureSet impl.futures commandFuture.future result
            commandFutures := impl.commandFutures.set a none }

omit [DecidableEq ι] in
/-- What the handler does if it does not go wrong: nothing, or it sets the future of
    the record that it finds and frees the record. -/
theorem handle_cases {impl impl' : BusImpl ι} {message}
    (h : handleOnMessageExecutionCompleted impl message = .ok impl') :
    impl' = impl ∨ ∃ (id : ι) (a : ℕ) (commandFuture : CommandFuture) (result : CommandResult),
      impl.messageIdTasks id = some a ∧ impl.commandFutures[a]?.join = some commandFuture ∧
      impl' = { impl with
        futures := futureSet impl.futures commandFuture.future result
        commandFutures := impl.commandFutures.set a none } := by
  unfold handleOnMessageExecutionCompleted at h
  split at h
  · exact Or.inl (Except.ok.inj h).symm
  · next message =>
    split at h
    · exact Or.inl (Except.ok.inj h).symm
    · next a hfound =>
      split at h
      · cases h
      · split at h
        · cases h
        · next commandFuture hrecord =>
          exact Or.inr ⟨_, a, commandFuture, _, hfound, hrecord, (Except.ok.inj h).symm⟩

/-- A call of `cb_bus_impl_send_to_async`, or a `MessageExecutionCompleted` that comes in. -/
inductive Event (ι : Type) where
  | send (id : ι) (fresh : CommandResult) (transportOk : Bool)
  | received (message : Option (MessageExecutionCompleted ι))

/-- What the bus does at an event. -/
def step (impl : BusImpl ι) : Event ι → Except Fault (BusImpl ι)
  | .send id fresh transportOk => .ok (sendToAsync impl id fresh transportOk)
  | .received message => handleOnMessageExecutionCompleted impl message

end Cebus.Bus
