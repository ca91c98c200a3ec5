import Cebus.Lib.BlockStream
import Cebus.Lib.SipHash
import Cebus.Lib.Calendar
import Cebus.Lib.LittleEndian
import Cebus.Lib.Timestamps
import Cebus.Lib.Decimal
import Cebus.Lib.Ranking
import Cebus.Lib.Transition
import Cebus.Lib.LinkedList
import Cebus.Lib.LinearProbing
import Cebus.Lib.Block
import Cebus.Lib.Fallible
import Cebus.Lib.Trie
import Cebus.Lib.TopicMatch
import Cebus.Lib.Base128
import Cebus.Lib.ZigZag
import Cebus.Lib.Framing
import Cebus.Lib.Components
import Cebus.Lib.BinarySearch
import Cebus.Collection.Hasher
import Cebus.Collection.HasherRefine
import Cebus.Collection.HashMap
import Cebus.Collection.HashMapLookup
import Cebus.Collection.HashMapGrow
import Cebus.Collection.HashMapRefine
import Cebus.Collection.HashMapResize
import Cebus.Collection.HashMapVisit
import Cebus.Collection.HashMapCount
import Cebus.Collection.HashMapRoom
import Cebus.Collection.HashMapRemove
import Cebus.Collection.Array
import Cebus.Collection.ArrayGrow
import Cebus.Collection.ArrayCopy
import Cebus.Utils.CString
import Cebus.Utils.CBuffer
import Cebus.Utils.StringReplace
import Cebus.Utils.Timespan
import Cebus.Utils.Time
import Cebus.Utils.TimeDecode
import Cebus.Utils.TimeEncode
import Cebus.Utils.TimeCompose
import Cebus.Utils.Threading
import Cebus.Utils.FutureGet
import Cebus.Utils.FutureThen
import Cebus.ProtobufC.IntRange
import Cebus.ProtobufC.NameTable
import Cebus.ProtobufC.EnumTables
import Cebus.ProtobufC.Message
import Cebus.ProtobufC.Wire
import Cebus.ProtobufC.Pack
import Cebus.ProtobufC.Encoding
import Cebus.ProtobufC.PackInPlace
import Cebus.ProtobufC.Unpack
import Cebus.ProtobufC.Records
import Cebus.ProtobufC.Decode
import Cebus.ProtobufC.ScanRefine
import Cebus.ProtobufC.UnpackRefine
import Cebus.ProtobufC.MemberRoundTrip
import Cebus.ProtobufC.RoundTrip
import Cebus.ProtobufC.Accepted
import Cebus.ProtobufC.Room
import Cebus.ProtobufC.Rewrite
import Cebus.ProtobufC.FieldOrder
import Cebus.Messages.Proto
import Cebus.Messages.TransportMessage
import Cebus.Messages.TransportRoundTrip
import Cebus.Messages.TimeUuid
import Cebus.Messages.Descriptors
import Cebus.Messages.Structures
import Cebus.Messages.Members
import Cebus.Messages.OverWire
import Cebus.ProtobufC.Guarantees
import Cebus.Peer.Peer
import Cebus.Peer.PeerListSpec
import Cebus.Peer.PeerListLinked
import Cebus.Peer.PeerListSequence
import Cebus.Subscription.BindingKey
import Cebus.Subscription.MessageKey
import Cebus.Subscription.KeyText
import Cebus.Peer.PeerDescriptor
import Cebus.Peer.DescriptorRoundTrip
import Cebus.Peer.TimestampScale
import Cebus.Peer.StoredIds
import Cebus.Subscription.Tree
import Cebus.Subscription.TreeShape
import Cebus.Subscription.TreeChild
import Cebus.Subscription.TreeGrow
import Cebus.Subscription.TreeShrink
import Cebus.Subscription.TreeRead
import Cebus.Subscription.TreeAdd
import Cebus.Subscription.TreeRemove
import Cebus.Subscription.Subscribers
import Cebus.Subscription.Routing
import Cebus.Subscription.Delivery
import Cebus.Subscription.Unsubscribe
import Cebus.Subscription.OwnKey
import Cebus.Subscription.AbsentRemoval
import Cebus.Subscription.WellFormed
import Cebus.Subscription.TreeDepth
import Cebus.Subscription.WireKey
import Cebus.Codegen.RoutingFields
import Cebus.Codegen.RoutingCheck
import Cebus.ProtobufC.FieldTables
import Cebus.Dispatch.MessageDispatcher
import Cebus.Dispatch.Continuation
import Cebus.Dispatch.DispatchQueue
import Cebus.Dispatch.QueueOrder
import Cebus.Dispatch.ProtoDispatcher
import Cebus.Transport.ZmqTransport
import Cebus.Transport.SendOrder
import Cebus.Transport.OutboundSocket
import Cebus.Transport.SocketRun
import Cebus.Transport.InboundSocket
import Cebus.Transport.OutboundSend
import Cebus.Bus.BusImpl
import Cebus.Bus.CommandCompletion
import Cebus.Bus.SendFailure
import Cebus.Bus.SenderRace
import Cebus.Bus.Lifecycle
import Cebus.Directory.PeerDirectory
import Cebus.Directory.LastWord
import Cebus.Directory.RegisterResponse
import Cebus.Directory.Registration
import Cebus.Directory.ResponseOverWire
import Cebus.Transport.InboundMessage
