import Netp.Lib.Run
import Netp.Lib.Chain
import Netp.Kring.Ctrl
import Netp.Kring.CtrlInv
import Netp.Kring.CtrlStep
import Netp.Kring.CtrlDelivery
import Netp.Kring.Data
import Netp.Kring.DataDesc
import Netp.Kring.DataInv
import Netp.Kring.DataOwn
import Netp.Kring.DataSolo
import Netp.Kring.DataHolds
import Netp.Kring.DataLap
import Netp.Kring.Kwrite
import Netp.Genf.Packet
import Netp.Genf.PacketAlloc
import Netp.Genf.PacketRep
import Netp.Genf.PacketRoundTrip
import Netp.Genf.Parse
import Netp.Genf.ParseFrame
import Netp.Genf.ParseDelivers
import Netp.Genf.Itq
import Netp.Genf.ItqMem
import Netp.Genf.ItqInv
import Netp.Genf.WriteBuffer
import Netp.Genf.OutputStream
import Netp.Tlsproxy.Fidelity
import Netp.Kring.CtrlQueue
import Netp.Lib.Avl
import Netp.Shuttle.Avl
import Netp.Shuttle.AvlRep
import Netp.Shuttle.AvlRotate
import Netp.Shuttle.AvlInsert
import Netp.Parse.Pattern
import Netp.Broker.Main
import Netp.Broker.Delivery
import Netp.Broker.StashReturns
import Netp.Broker.Definition
import Netp.Lib.LineProtocol
import Netp.Broker.StashPackets
import Netp.Lib.Pieces
import Netp.Parse.BlockExec
import Netp.Parse.Segment
import Netp.Lib.CString
import Netp.Parse.HttpRsp
import Netp.Parse.Ident
import Netp.Parse.Message
import Netp.Parse.Framing
import Netp.Parse.FramingBody
import Netp.Parse.Handler
import Netp.Parse.HandlerFrames
import Netp.Parse.Payload
import Netp.Parse.SourceCalls
import Netp.Parse.Completion
import Netp.Parse.Fetch
import Netp.Parse.Reconnect
import Netp.Parse.TreeStack
import Netp.Parse.Json
import Netp.Parse.Body
import Netp.Parse.Session
import Netp.Parse.Responses
import Netp.Parse.GrownAlike
import Netp.Parse.SessionAlike
import Netp.Parse.FetchTree
import Netp.Kring.Socket
import Netp.Kring.SocketSafe
import Netp.Genf.EventLoop
import Netp.Kring.SocketIds
import Netp.Kring.Allocate
import Netp.Parse.Barriers
import Netp.Shuttle.Block
import Netp.Lib.Follow
import Netp.Parse.Dns
import Netp.Parse.DnsNames
import Netp.Parse.DnsRun
import Netp.Parse.DnsBounds
import Netp.Parse.DnsCalls
import Netp.Parse.Match
import Netp.Sniff.Redirect
import Netp.Parse.JsonParse
import Netp.Parse.JsonDoc
import Netp.Parse.JsonAgree
import Netp.Parse.JsonPlain
import Netp.Parse.JsonBoth
import Netp.Parse.TcpOriented
import Netp.Tlsproxy.Certificates
import Netp.Genf.HostMatch
import Netp.Genf.LoopTimer
import Netp.Kring.Consumed
import Netp.Genf.PacketIds
import Netp.Lib.Phrases
import Netp.Parse.JsonLanguage
import Netp.Genf.Offsets
import Netp.Genf.RecordList
import Netp.Genf.ParseSafe
import Netp.Genf.SendRope
import Netp.Genf.EndOfStream
import Netp.Parse.Failure
import Netp.Parse.FailureCalls
import Netp.Parse.BodyType
import Netp.Parse.DnsMessage
import Netp.Parse.DnsDecode
import Netp.Genf.JavaAgree
import Netp.Parse.Signature
import Netp.Parse.Decompress
import Netp.Lib.Scan
import Netp.Shuttle.Frames
import Netp.Shuttle.Bridge
import Netp.Shuttle.Latency
import Netp.Sniff.Interception
import Netp.Lib.Splice
import Netp.Genf.DList
import Netp.Genf.DListSeq
import Netp.Genf.Link
import Netp.Lib.History
import Netp.Genf.Lifecycle
import Netp.Genf.Callbacks
import Netp.Genf.Handshake
import Netp.Tlsproxy.Session
import Netp.Tlsproxy.DataSteps
import Netp.Tlsproxy.Policy
import Netp.Parse.ReqLanguage
import Netp.Parse.ReqReads
import Netp.Genf.Rounds
import Netp.Genf.RoundsServed
