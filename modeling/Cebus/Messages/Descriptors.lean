import Cebus.ProtobufC.Message

/-!
# The descriptors of the messages

What `protoc-c` generates for the messages of the `.proto` files.
-/

namespace Cebus.Proto

open ProtobufC

/-- The messages, by their files. -/
inductive MessageName where
  | dateTime | guid
  | bindingKey | messageExecutionCompleted | messageId | messageTypeId | originatorInfo | peer
  | peerDescriptor | peerId | peerStarted | pingPeerCommand | registerPeerCommand
  | registerPeerResponse | subscription | transportMessage | unregisterPeerCommand
deriving DecidableEq

/-- A required field. -/
def required (id : UInt32) (type : FieldType MessageName) : FieldDescriptor MessageName :=
  ⟨id, .required, type, false⟩

/-- An optional field. -/
def optional (id : UInt32) (type : FieldType MessageName) : FieldDescriptor MessageName :=
  ⟨id, .optional, type, false⟩

/-- A repeated field that is not packed. -/
def repeated (id : UInt32) (type : FieldType MessageName) : FieldDescriptor MessageName :=
  ⟨id, .repeated, type, false⟩

namespace MessageName

/-- The fields of a message, sorted by their numbers. -/
def fields : MessageName → List (FieldDescriptor MessageName)
  | dateTime => [optional 1 (.scalar .sint64), optional 2 (.scalar .enum)]
  | guid => [required 1 (.scalar .fixed64), required 2 (.scalar .fixed64)]
  | bindingKey => [repeated 1 .string]
  | messageExecutionCompleted =>
    [required 1 (.message messageId), required 2 (.scalar .int32),
      optional 3 (.message messageTypeId), optional 4 .bytes, optional 5 .string]
  | messageId => [required 1 (.message guid)]
  | messageTypeId => [required 1 .string]
  | originatorInfo =>
    [required 1 (.message peerId), required 2 .string, optional 3 .string, optional 4 .string]
  | peer =>
    [required 1 (.message peerId), required 2 .string, required 3 (.scalar .bool),
      optional 4 (.scalar .bool)]
  | peerDescriptor =>
    [required 1 (.message peer), repeated 2 (.message subscription), required 3 (.scalar .bool),
      optional 4 (.message dateTime), optional 5 (.scalar .bool)]
  | peerId => [required 1 .string]
  | peerStarted => [required 1 (.message peerDescriptor)]
  | pingPeerCommand => []
  | registerPeerCommand => [required 1 (.message peerDescriptor)]
  | registerPeerResponse => [repeated 1 (.message peerDescriptor)]
  | subscription => [required 1 (.message messageTypeId), required 2 (.message bindingKey)]
  | transportMessage =>
    [required 1 (.message messageId), required 2 (.message messageTypeId), required 3 .bytes,
      required 4 (.message originatorInfo), optional 5 .string, optional 6 (.scalar .bool),
      repeated 7 (.message peerId)]
  | unregisterPeerCommand =>
    [required 1 (.message peerId), optional 2 .string, optional 3 (.message dateTime)]

/-- The `…__descriptor` of a message. -/
def descriptor (name : MessageName) : MessageDescriptor MessageName where
  fields := name.fields
  fieldRanges := writeIntRanges (fieldNumbers name.fields)
  fieldRanges_eq := rfl
  sorted := by cases name <;> decide
  numbers := by cases name <;> decide
  packed := by cases name <;> decide

end MessageName

end Cebus.Proto
