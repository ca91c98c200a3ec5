import Cebus.Bus.BusImpl
import Cebus.Messages.TransportMessage

/-!
# Inbound messages

What happens to an unpacked `TransportMessage` in the transport
(`zmq_transport.c`) and then in the bus (`bus.c`). The required fields of a
message are there, since unpacking fails without them; each optional one may be
absent.

Memory that is allocated and not cleared is a parameter, and so is what
`vsnprintf` prints for the two fields of the message that it takes as formats.

* `handle_complete`: the completion here is that of the model of the bus.
* `handled_iff`: the messages in whose handling no absent field is read, and no
  field is left as it was in fresh memory.
-/

namespace Cebus.Inbound

open LinkedList (Fault)
open Bus (CommandResult MessageExecutionCompleted)

/-! ## The handling of a message -/

/-- `CB_MESSAGE_TYPE_ID_END_OF_STREAM` (`message_type_id.h`, line 11). -/
def endOfStream : CString := CString.ofChars "Abc.Zebus.Transport.EndOfStream".toList

/-- `CB_MESSAGE_TYPE_ID_END_OF_STREAM_ACK` (line 12). -/
def endOfStreamAck : CString := CString.ofChars "Abc.Zebus.Transport.EndOfStreamAck".toList

/-- `CB_MESSAGE_TYPE_ID_MESSAGE_EXECUTION_COMPLETED` (line 13). -/
def messageExecutionCompleted : CString :=
  CString.ofChars "Abc.Zebus.Core.MessageExecutionCompleted".toList

/-- What fresh memory contains: that of the decoded message, and that of the result in
    the record of a command (`cb_command_future_init` does not set it). -/
structure Memory where
  message : TransportMessage
  result : CommandResult
deriving DecidableEq

/-- What is printed for the type and the sender of the message. -/
structure Printed where
  messageTypeId : MessageTypeId
  senderId : PeerId

/-- How the handling ends. -/
inductive Outcome where
  | wrongEnvironment
  | endOfStream
  | undecodable
  | unknownCommand
  | completed (result : CommandResult)
  | dispatched (message : TransportMessage)
deriving DecidableEq

variable {ι : Type}

/-- A string for the directive `%s` of a log call, which must not be `NULL`. -/
def logString (s : Option CString) : Except Fault Unit :=
  match s with
  | none => .error .null
  | some _ => .ok ()

/-- `cb_bus_impl_handle_on_message_execution_completed` (`bus.c`, lines 94–142) on what
    unpacking yields, for commands that are unknown or pending. -/
def handleOnMessageExecutionCompleted (pending : ι → Bool) (memory : Memory)
    (message : Option (MessageExecutionCompleted ι)) : Except Fault Outcome :=
  match message with
  | none => .ok .undecodable
  | some message =>
    if pending message.sourceMessageId then
      match message.payloadTypeId with
      | none => .error .null
      | some _ => .ok (.completed
          { errorCode := message.errorCode
            data := message.payload.getD memory.result.data })
    else .ok .unknownCommand

/-- `cb_bus_impl_on_transport_message` (lines 150–167). -/
def onTransportMessage (unpack : List UInt8 → Option (MessageExecutionCompleted ι))
    (pending : ι → Bool) (printed : Printed) (message : Proto.TransportMessage)
    (memory : Memory) : Except Fault Outcome := do
  logString message.originator.senderMachine
  if CString.strcmpEq message.messageTypeId.fullName messageExecutionCompleted then
    handleOnMessageExecutionCompleted pending memory (unpack message.contentBytes)
  else
    Outcome.dispatched <$>
      transportMessageFill memory.message printed.messageTypeId printed.senderId message

/-- `cb_zmq_transport_validate_message` (`zmq_transport.c`, lines 184–195). -/
def validateMessage (environment : CString) (message : Proto.TransportMessage) :
    Except Fault Bool :=
  match message.environment with
  | none => .error .null
  | some messageEnvironment => .ok (CString.strncmpEq environment messageEnvironment 255)

/-- `cb_zmq_transport_handle_message` (lines 205–229) in the transport of a bus. -/
def handleMessage (environment : CString)
    (unpack : List UInt8 → Option (MessageExecutionCompleted ι)) (pending : ι → Bool)
    (printed : Printed) (message : Proto.TransportMessage) (memory : Memory) :
    Except Fault Outcome := do
  let valid ← validateMessage environment message
  if valid then
    if CString.strcmpEq message.messageTypeId.fullName endOfStream then .ok .endOfStream
    else if CString.strcmpEq message.messageTypeId.fullName endOfStreamAck then .ok .endOfStream
    else onTransportMessage unpack pending printed message memory
  else .ok .wrongEnvironment

/-- No absent field is read, and nothing depends on what fresh memory contains. -/
def Handled (handle : Memory → Except Fault Outcome) : Prop :=
  (∀ memory, handle memory ≠ .error .null) ∧ ∀ memory memory', handle memory = handle memory'

/-! ## What has to be present -/

/-- A completion of a pending command has its payload and the type of it. -/
def CompletionPresent (pending : ι → Bool) (message : MessageExecutionCompleted ι) : Prop :=
  pending message.sourceMessageId = true → message.payloadTypeId ≠ none ∧ message.payload ≠ none

/-- The optional fields that the bus needs: the machine of the sender, and those of the
    completion or the user of the sender. -/
def BusPresent (unpack : List UInt8 → Option (MessageExecutionCompleted ι)) (pending : ι → Bool)
    (message : Proto.TransportMessage) : Prop :=
  message.originator.senderMachine ≠ none ∧
    if message.messageTypeId.fullName = messageExecutionCompleted then
      ∀ completed, unpack message.contentBytes = some completed →
        CompletionPresent pending completed
    else message.originator.initiatorUserName ≠ none

/-- The environment is needed first, and a message of another one, or that ends the
    stream, needs no other field. -/
def Present (environment : CString) (unpack : List UInt8 → Option (MessageExecutionCompleted ι))
    (pending : ι → Bool) (message : Proto.TransportMessage) : Prop :=
  ∃ messageEnvironment, message.environment = some messageEnvironment ∧
    (CString.strncmpEq environment messageEnvironment 255 = true →
      message.messageTypeId.fullName ≠ endOfStream →
      message.messageTypeId.fullName ≠ endOfStreamAck → BusPresent unpack pending message)

/-- Cleared memory. -/
def clear : Memory :=
  { message :=
      { id := ⟨⟨List.replicate 16 0, rfl⟩⟩
        messageTypeId := ⟨CString.ofChars [], by decide⟩
        originator := ⟨⟨CString.ofChars [], by decide⟩, .ofChars [], .ofChars [], .ofChars []⟩
        environment := CString.ofChars []
        wasPersisted := false
        data := [] }
    result := ⟨0, []⟩ }

/-- What is printed of a message all of whose texts are there. -/
def somePrinted : Printed := ⟨clear.message.messageTypeId, clear.message.originator.senderId⟩

variable {handle : Memory → Except Fault Outcome}

theorem handled_of_eq {outcome : Outcome} (h : ∀ memory, handle memory = .ok outcome) :
    Handled handle := by
  refine ⟨fun memory hnull => ?_, fun memory memory' => (h memory).trans (h memory').symm⟩
  rw [h memory] at hnull
  cases hnull

theorem not_handled_of_null (h : ∀ memory, handle memory = .error .null) : ¬ Handled handle :=
  fun hhandled => hhandled.1 clear (h clear)

/-! ## Each function -/

theorem handled_completed_iff {pending : ι → Bool}
    {message : Option (MessageExecutionCompleted ι)} :
    Handled (fun memory => handleOnMessageExecutionCompleted pending memory message) ↔
      ∀ completed, message = some completed → CompletionPresent pending completed := by
  cases message with
  | none => exact iff_of_true (handled_of_eq fun _ => rfl) fun _ h => by cases h
  | some message =>
    simp only [Option.some.injEq, forall_eq']
    unfold handleOnMessageExecutionCompleted CompletionPresent
    by_cases hpending : pending message.sourceMessageId = true
    · simp only [hpending, if_true, true_implies]
      cases message.payloadTypeId with
      | none => exact iff_of_false (not_handled_of_null fun _ => rfl) fun h => h.1 rfl
      | some name =>
        cases message.payload with
        | none =>
          -- the result is what the record contained
          refine iff_of_false (fun h => ?_) fun h => h.2 rfl
          have hsame := h.2 clear { clear with result := ⟨0, [0]⟩ }
          simp [clear] at hsame
        | some payload =>
          simp only [Option.getD_some]
          exact iff_of_true (handled_of_eq fun _ => rfl) ⟨by simp, by simp⟩
    · simp only [if_neg hpending]
      exact iff_of_true (handled_of_eq fun _ => rfl) fun h => absurd h hpending

/-- A message is decoded as a whole if its optional strings are there. -/
theorem handled_fill_iff {typeId : MessageTypeId} {senderId : PeerId}
    {message : Proto.TransportMessage} (henvironment : message.environment ≠ none)
    (hmachine : message.originator.senderMachine ≠ none) :
    Handled (fun memory =>
        Outcome.dispatched <$> transportMessageFill memory.message typeId senderId message) ↔
      message.originator.initiatorUserName ≠ none := by
  obtain ⟨environment, henvironment⟩ := Option.ne_none_iff_exists'.mp henvironment
  obtain ⟨machine, hmachine⟩ := Option.ne_none_iff_exists'.mp hmachine
  simp only [transportMessageFill, originatorInfoFill, henvironment, hmachine, Fallible.map_ok]
  cases message.originator.initiatorUserName with
  | none =>
    refine iff_of_false (fun h => ?_) fun h => h rfl
    have hsame := h.2 clear { clear with message := { clear.message with
      originator := { clear.message.originator with initiatorUserName := .ofChars ['u'] } } }
    simp only [Except.ok.injEq, Outcome.dispatched.injEq, TransportMessage.mk.injEq,
      OriginatorInfo.mk.injEq, true_and, and_true] at hsame
    exact absurd hsame (by decide)
  | some user =>
    dsimp only
    exact iff_of_true (handled_of_eq fun _ => rfl) (by simp)

variable {environment : CString} {unpack : List UInt8 → Option (MessageExecutionCompleted ι)}
  {pending : ι → Bool}

theorem handled_onTransportMessage_iff (printed : Printed) {message : Proto.TransportMessage}
    (henvironment : message.environment ≠ none) :
    Handled (onTransportMessage unpack pending printed message) ↔
      BusPresent unpack pending message := by
  unfold onTransportMessage BusPresent logString
  cases hmachine : message.originator.senderMachine with
  | none => exact iff_of_false (not_handled_of_null fun _ => rfl) fun h => h.1 rfl
  | some machine =>
    simp only [Fallible.ok_bind, CString.strcmpEq, decide_eq_true_eq, ne_eq, reduceCtorEq,
      not_false_eq_true, true_and]
    split_ifs with htype
    · exact handled_completed_iff
    · exact handled_fill_iff henvironment (by simp [hmachine])

/-- **The handling of a message reads no absent field and leaves none uninitialised
    exactly when the fields are present that its environment and type call for.** -/
theorem handled_iff (environment : CString)
    (unpack : List UInt8 → Option (MessageExecutionCompleted ι)) (pending : ι → Bool)
    (message : Proto.TransportMessage) :
    (∀ printed, Handled (handleMessage environment unpack pending printed message)) ↔
      Present environment unpack pending message := by
  unfold handleMessage validateMessage Present
  cases henvironment : message.environment with
  | none =>
    refine iff_of_false (fun h => ?_) fun ⟨_, h, _⟩ => by cases h
    exact not_handled_of_null (fun _ => rfl) (h somePrinted)
  | some messageEnvironment =>
    simp only [Fallible.ok_bind, CString.strcmpEq, decide_eq_true_eq, Option.some.injEq,
      exists_eq_left']
    by_cases hvalid : CString.strncmpEq environment messageEnvironment 255 = true
    · simp only [hvalid, if_true, true_implies]
      split_ifs with hend hack
      · exact iff_of_true (fun _ => handled_of_eq fun _ => rfl) fun h => absurd hend h
      · exact iff_of_true (fun _ => handled_of_eq fun _ => rfl) fun _ h => absurd hack h
      · have hsome : message.environment ≠ none := by simp [henvironment]
        constructor
        · exact fun h _ _ => (handled_onTransportMessage_iff somePrinted hsome).mp (h somePrinted)
        · exact fun h printed => (handled_onTransportMessage_iff printed hsome).mpr (h hend hack)
    · simp only [hvalid]
      exact iff_of_true (fun _ => handled_of_eq fun _ => rfl) fun h => absurd h (by simp)

/-- A message without an environment: `strncmp` is given `NULL`. -/
theorem not_handled :
    ¬ ∀ (environment : CString) (unpack : List UInt8 → Option (MessageExecutionCompleted ℕ))
      (pending : ℕ → Bool) (message : Proto.TransportMessage) (printed : Printed),
      Handled (handleMessage environment unpack pending printed message) := by
  intro h
  let message : Proto.TransportMessage :=
    { transportMessageProtoNew clear.message with environment := none }
  exact not_handled_of_null (fun _ => rfl)
    (h (CString.ofChars "dev".toList) (fun _ => none) (fun _ => false) message somePrinted)

/-! ## The completion in the bus -/

/-- On a pending command, whose record contains what was in fresh memory, the handler
    here sets the future as that of the bus does, and goes wrong as it does. -/
theorem handle_complete {impl : Bus.BusImpl ι} {memory : Memory} {a f : ℕ}
    {message : MessageExecutionCompleted ι}
    (hfound : impl.messageIdTasks message.sourceMessageId = some a)
    (hrecord : impl.commandFutures[a]?.join = some ⟨memory.result, f⟩)
    (hpending : pending message.sourceMessageId = true) :
    Bus.handleOnMessageExecutionCompleted impl (some message) =
      match handleOnMessageExecutionCompleted pending memory (some message) with
      | .ok (.completed result) => .ok { impl with
          futures := Bus.futureSet impl.futures f result
          commandFutures := impl.commandFutures.set a none }
      | _ => .error .nullPointer := by
  simp only [Bus.handleOnMessageExecutionCompleted, handleOnMessageExecutionCompleted, hfound,
    hpending, hrecord, if_true]
  cases message.payloadTypeId with
  | none => rfl
  | some name => rfl

end Cebus.Inbound
