import AiInterceptor.Lib.ByteOrder
import AiInterceptor.Lib.Layout
import AiInterceptor.Lib.Blocks
import AiInterceptor.Lib.TSys
import AiInterceptor.Lib.Stream
import AiInterceptor.Go.Strings
import AiInterceptor.Go.Net
import AiInterceptor.Go.Bytes
import AiInterceptor.Bpf.Defs
import AiInterceptor.Bpf.Observer
import AiInterceptor.Bpf.Connect
import AiInterceptor.Agent.Dns
import AiInterceptor.Theorems.Destinations
import AiInterceptor.Agent.Reader
import AiInterceptor.Theorems.FrameRoundTrip
import AiInterceptor.Lib.Effects
import AiInterceptor.Agent.Manager
import AiInterceptor.Logic.Manager
import AiInterceptor.Agent.Process
import AiInterceptor.Logic.Redirect
import AiInterceptor.Agent.DataPlane
import AiInterceptor.Logic.DataPlane
import AiInterceptor.Theorems.Restart
import AiInterceptor.Agent.Managers
import AiInterceptor.Theorems.LiveHooks
import AiInterceptor.Theorems.Interception
import AiInterceptor.Theorems.AuditLog
import AiInterceptor.Proxy.Tls
import AiInterceptor.Logic.Sni
import AiInterceptor.Logic.Runes
import AiInterceptor.Logic.Trim
import AiInterceptor.Logic.Observer
import AiInterceptor.Proxy.Handle
import AiInterceptor.Logic.Handle
import AiInterceptor.Theorems.StreamIntact
import AiInterceptor.Theorems.ClientHello
import AiInterceptor.Proxy.Relay
import AiInterceptor.Theorems.Teardown
import AiInterceptor.Theorems.FrameSafety
import AiInterceptor.Theorems.RingSamples
import AiInterceptor.Theorems.LabelBoundary
import AiInterceptor.Theorems.AnswerOrder
import AiInterceptor.Theorems.LetterCase
import AiInterceptor.Theorems.HostHeader
import AiInterceptor.Logic.HostPort
import AiInterceptor.Theorems.RequestHead
import AiInterceptor.Theorems.Segmentation
import AiInterceptor.Theorems.DialTarget
import AiInterceptor.Theorems.ServerName
import AiInterceptor.Theorems.Fragments
import AiInterceptor.Lib.Simulation
import AiInterceptor.Lib.Table
import AiInterceptor.Agent.Pipeline
import AiInterceptor.Theorems.Capture
import AiInterceptor.Theorems.EndToEnd
import AiInterceptor.Theorems.DomainList
import AiInterceptor.Theorems.Noninterference
import AiInterceptor.Lib.Progress
import AiInterceptor.Theorems.CatchUp
import AiInterceptor.Theorems.LogAddresses
import AiInterceptor.Theorems.Zones
import AiInterceptor.Lib.Parallel
import AiInterceptor.Proxy.Session
import AiInterceptor.Logic.Session
import AiInterceptor.Theorems.Sessions
import AiInterceptor.Theorems.TlsRouting
import AiInterceptor.Theorems.HttpRouting
import AiInterceptor.Theorems.Buffers
import AiInterceptor.Agent.Serve
import AiInterceptor.Theorems.Shutdown
import AiInterceptor.Network.Deployment
import AiInterceptor.Theorems.DataFlow
import AiInterceptor.Agent.Log
import AiInterceptor.Theorems.LogTrail
