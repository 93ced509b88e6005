import ModernTcp.Common.Config
import ModernTcp.Common.LetterCase
import ModernTcp.Common.Lines
import ModernTcp.Common.QpsThreads
import ModernTcp.Common.ServerMetrics
import ModernTcp.Common.StringUtils
import ModernTcp.Common.WorkerPool
import ModernTcp.Http.ClientRequest
import ModernTcp.Http.ContentLength
import ModernTcp.Http.FailingHandler
import ModernTcp.Http.HeadFields
import ModernTcp.Http.HeadFraming
import ModernTcp.Http.HeadLines
import ModernTcp.Http.HeaderLine
import ModernTcp.Http.HeaderNames
import ModernTcp.Http.HeaderOrder
import ModernTcp.Http.HttpGrammar
import ModernTcp.Http.HttpParserIncremental
import ModernTcp.Http.HttpParserLines
import ModernTcp.Http.HttpParserPipeline
import ModernTcp.Http.HttpParserScan
import ModernTcp.Http.HttpRouter
import ModernTcp.Http.HttpTypes
import ModernTcp.Http.LineLimit
import ModernTcp.Http.MiddlewareChain
import ModernTcp.Http.ParserProgress
import ModernTcp.Http.RequestLine
import ModernTcp.Http.ResponseDecode
import ModernTcp.Http.ResponseStream
import ModernTcp.Http.RouteKeys
import ModernTcp.Lib.Decimal
import ModernTcp.Lib.Execution
import ModernTcp.Lib.Frames
import ModernTcp.Lib.Json
import ModernTcp.Lib.Loop
import ModernTcp.Lib.Multimap
import ModernTcp.Lib.Pipeline
import ModernTcp.Lib.Threads
import ModernTcp.Lib.Transfer
import ModernTcp.Lib.Wire
import ModernTcp.Net.AcceptAccounts
import ModernTcp.Net.BatchEvents
import ModernTcp.Net.Buffer
import ModernTcp.Net.BufferMutex
import ModernTcp.Net.BufferQueue
import ModernTcp.Net.BufferRead
import ModernTcp.Net.BufferWords
import ModernTcp.Net.ConnectionLimit
import ModernTcp.Net.DescriptorOwnership
import ModernTcp.Net.Descriptors
import ModernTcp.Net.EpollConnection
import ModernTcp.Net.FunctorQueue
import ModernTcp.Net.HttpDelivery
import ModernTcp.Net.HttpPipeline
import ModernTcp.Net.IdleTimeout
import ModernTcp.Net.LineProtocol
import ModernTcp.Net.OutputCalls
import ModernTcp.Net.OutputPath
import ModernTcp.Net.PipelineClose
import ModernTcp.Net.PipelineLimit
import ModernTcp.Net.PipelineOrder
import ModernTcp.Net.PipelineQueue
import ModernTcp.Net.PipelineRest
import ModernTcp.Net.Pipelining
import ModernTcp.Net.ProtobufEcho
import ModernTcp.Net.ProtobufFraming
import ModernTcp.Net.ProtobufRecognition
import ModernTcp.Net.ProtobufSession
import ModernTcp.Net.ProtocolDetect
import ModernTcp.Net.ProtocolSegmentation
import ModernTcp.Net.RawRequest
import ModernTcp.Net.RawViews
import ModernTcp.Net.ReactorInvariant
import ModernTcp.Net.ReactorLifetime
import ModernTcp.Net.ReactorMaps
import ModernTcp.Net.ReactorQueue
import ModernTcp.Net.ReactorStart
import ModernTcp.Net.ReactorStop
import ModernTcp.Net.ReadClose
import ModernTcp.Net.RefusedStreams
import ModernTcp.Net.Server
import ModernTcp.Net.ServerClose
import ModernTcp.Net.ServerCloseLoss
import ModernTcp.Net.ServerDescriptors
import ModernTcp.Net.ServerFrame
import ModernTcp.Net.StrandedConnections
import ModernTcp.Net.SubReactor
import ModernTcp.Net.TcpClient
import ModernTcp.Net.TextSession
import ModernTcp.Net.TimeoutMap
import ModernTcp.Net.TimeoutScan
import ModernTcp.Net.Transfers
import ModernTcp.Server.ConnectionHeader
import ModernTcp.Server.EchoRoute
import ModernTcp.Server.HttpAnswers
import ModernTcp.Server.HttpEchoSession
import ModernTcp.Server.HttpSession
import ModernTcp.Server.JsonSession
import ModernTcp.Server.MetricsJson
import ModernTcp.Server.MetricsSession
import ModernTcp.Server.Routes
import ModernTcp.Server.SlowRoute
